import LightningLob.Exposure

/-! # How far the risk limits reach

    The risk check is made once, when an order is submitted, against the
    filled position.  Amends are not checked, and resting orders are not
    counted.  The limits set for a pair bound what it has in the market and
    its position in every run in which no step slips through there. -/

namespace LightningLob

/-! ## Section 1: Limits in force -/

namespace RiskManager

/-- The pair has an entry with the given limits. -/
def InForce (rm : RiskManager) (s p : Nat) (limits : SymbolRiskLimits) : Prop :=
  ∃ st, rm.state (packKey s p) = some st ∧ st.limits = limits

section in_force

variable {pf : Platform} {rm : RiskManager} {s p t q : Nat} {limits : SymbolRiskLimits}

theorem setLimits_inForce (rm : RiskManager) (s p : Nat) (limits : SymbolRiskLimits) :
    (rm.setLimits s p limits).InForce s p limits :=
  ⟨_, store_state_self, rfl⟩

theorem InForce.entry (h : rm.InForce s p limits) : (rm.entry s p).limits = limits := by
  obtain ⟨st, hst, hlimits⟩ := h
  rw [entry_of_state hst]
  exact hlimits

/-- A write keeps the limits in force if it keeps those of the pair. -/
theorem InForce.store (h : rm.InForce s p limits) (hp : p < 2 ^ 32) (hq : q < 2 ^ 32)
    {st : SymbolParticipantState} (hst : s = t → p = q → st.limits = (rm.entry t q).limits) :
    (rm.store t q st).InForce s p limits := by
  by_cases hpair : s = t ∧ p = q
  · obtain ⟨rfl, rfl⟩ := hpair
    exact ⟨st, store_state_self, (hst rfl rfl).trans h.entry⟩
  · obtain ⟨st', hst', hlimits⟩ := h
    exact ⟨st', by rw [store_state_of_ne hq hp hpair]; exact hst', hlimits⟩

theorem InForce.onFill (h : rm.InForce s p limits) (hp : p < 2 ^ 32) (hq : q < 2 ^ 32) (t : Nat)
    (side : Side) (quantity : Int) : (rm.onFill pf t q side quantity).InForce s p limits :=
  h.store hp hq fun _ _ => rfl

theorem InForce.trades (h : rm.InForce s p limits) (hp : p < 2 ^ 32) {ts : List Trade}
    (hts : ∀ t ∈ ts, t.takerParticipantId < 2 ^ 32 ∧ t.makerParticipantId < 2 ^ 32) :
    (ts.foldl (onTrade pf) rm).InForce s p limits := by
  induction ts generalizing rm with
  | nil => exact h
  | cons t ts ih =>
    obtain ⟨ht, hm⟩ := hts t (by simp)
    exact ih ((h.onFill hp ht _ _ _).onFill hp hm _ _ _) fun u hu => hts u (by simp [hu])

theorem InForce.checkNewOrder (h : rm.InForce s p limits) (pf : Platform) (hp : p < 2 ^ 32)
    (hq : q < 2 ^ 32) (t : Nat) (side : Side) (quantity : Int) (now : Timestamp) :
    (rm.checkNewOrder pf t q side quantity now).2.InForce s p limits := by
  unfold RiskManager.checkNewOrder
  cases hst : rm.state (packKey t q) with
  | none => exact h
  | some st =>
    apply h.store hp hq
    intro _ _
    rw [entry_of_state hst]
    exact (st.check_keeps pf side quantity now).1

/-- What the check says of an order it lets through. -/
theorem InForce.within (h : rm.InForce s p limits) {side : Side} {quantity : Int} {now : Timestamp}
    (hcheck : (rm.checkNewOrder pf s p side quantity now).1 = .none) :
    (rm.entry s p).Within pf side quantity := by
  obtain ⟨st, hst, -⟩ := h
  unfold RiskManager.checkNewOrder at hcheck
  rw [hst] at hcheck
  rw [entry_of_state hst]
  exact (SymbolParticipantState.check_eq_none_iff.mp hcheck).1

end in_force

end RiskManager

/-- The call submits an order of the participant on the symbol. -/
def EngineCall.SubmitsFor (s p : UInt32) : EngineCall → Prop
  | .submit request => request.symbol = s ∧ request.participantId = p
  | _ => False

/-- The call sets the limits of the pair. -/
def EngineCall.Configures (s p : UInt32) : EngineCall → Prop
  | .setRiskLimits symbol participant _ => symbol = s ∧ participant = p
  | _ => False

/-! ## Section 2: Engines in a run -/

namespace MatchingEngine

/-- What every engine of a run satisfies: its books are valid and hold orders
    that were submitted. -/
structure Running {k : Approach} (pf : Platform) (e : MatchingEngine k) : Prop where
  valid : e.Valid pf
  submitted : ∃ tape, RestingSubmitted e tape

section running

variable {k : Approach} {pf : Platform} {e e' : MatchingEngine k} {a : EngineCall × Clock}
  {reply : Reply} {s p : UInt32} {limits : SymbolRiskLimits}

theorem running_initial (rm : RiskManager) :
    Running pf ({ riskManager := rm } : MatchingEngine k) :=
  ⟨valid_initial rm, [], fun s b hb => by cases hb⟩

/-- **Step**: every call returns and leaves a running engine; its trades are
    positive and between participants with 32-bit ids. -/
theorem Running.step (h : e.Running pf) (a : EngineCall × Clock) :
    ∃ reply e', e.call pf a = some (reply, e') ∧ e.Effect pf a reply e' ∧ e'.Running pf ∧
      (∀ t ∈ reply.trades, 0 < t.quantity) ∧
      ∀ t ∈ reply.trades, t.takerParticipantId < 2 ^ 32 ∧ t.makerParticipantId < 2 ^ 32 := by
  obtain ⟨tape, hrest⟩ := h.submitted
  obtain ⟨reply, e', hrun, heffect, hvalid⟩ := h.valid.call_spec a
  have htrade := fun t (ht : t ∈ reply.trades) => hrest.trade h.valid heffect ht
  refine ⟨reply, e', hrun, heffect, ⟨hvalid, _, hrest.step h.valid heffect⟩, ?_, ?_⟩
  · exact fun t ht => (htrade t ht).1
  · exact fun t ht => ⟨(htrade t ht).2.1.participant_lt, (htrade t ht).2.2.participant_lt⟩

/-- Limits stay in force until they are set again. -/
theorem Effect.inForce (h : e.Effect pf a reply e')
    (hlegs : ∀ t ∈ reply.trades, t.takerParticipantId < 2 ^ 32 ∧ t.makerParticipantId < 2 ^ 32)
    (ha : ¬ a.1.Configures s p) (hforce : e.riskManager.InForce s.toNat p.toNat limits) :
    e'.riskManager.InForce s.toNat p.toNat limits := by
  cases h with
  | idle | registered => exact hforce
  | @limited symbol participant limits' now =>
    apply hforce.store p.toNat_lt participant.toNat_lt
    intro hs hp
    exact absurd ⟨(UInt32.toNat_inj.mp hs).symm, (UInt32.toNat_inj.mp hp).symm⟩ ha
  | @refused request now reason rm b _ hcheck _ =>
    have hkeeps := hforce.checkNewOrder pf p.toNat_lt request.participantId.toNat_lt
      request.symbol.toNat request.side request.quantity (now 0)
    rw [hcheck] at hkeeps
    exact hkeeps
  | booked hbook hforward _ =>
    refine RiskManager.InForce.trades ?_ p.toNat_lt hlegs
    cases hforward with
    | @submit request now rm hcheck =>
      have hkeeps := hforce.checkNewOrder pf p.toNat_lt request.participantId.toNat_lt
        request.symbol.toNat request.side request.quantity (now 0)
      rw [hcheck] at hkeeps
      exact hkeeps
    | cancel | amend | reset => exact hforce

/-- An order of the participant that reaches the book of the symbol was
    submitted there and passed the check. -/
theorem Forwards.request {c : Call × Clock} {rm : RiskManager} {n : UInt64}
    (h : Forwards pf e a s.toNat c rm n) {order : Order} (hc : c.1 = .add order)
    (hp : order.participantId = p.toNat) :
    ∃ request now, a = (.submit request, now) ∧ request.symbol = s ∧ request.participantId = p ∧
      order = request.toOrder (e.assignId request).1.toNat (now 0) ∧
      (e.riskManager.checkNewOrder pf s.toNat p.toNat request.side request.quantity (now 0)).1 =
        .none := by
  generalize hsym : s.toNat = symbol at h
  cases h with
  | @submit request now rm hcheck =>
    have horder := Call.add.inj hc
    subst horder
    have hpart : request.participantId.toNat = p.toNat := hp
    refine ⟨request, now, rfl, (UInt32.toNat_inj.mp hsym).symm, UInt32.toNat_inj.mp hpart, rfl, ?_⟩
    rw [← hpart, hcheck]
  | cancel | amend | reset => cases hc

/-- An amend that reaches the book of the symbol was made on it. -/
theorem Forwards.amends {c : Call × Clock} {rm : RiskManager} {n : UInt64}
    (h : Forwards pf e a s.toNat c rm n) {id : OrderId} {quantity : Int} {price : Option Int}
    (hc : c.1 = .amend id quantity price) : a.1 = .amend s id quantity price := by
  generalize hsym : s.toNat = symbol at h
  cases h with
  | amend =>
    obtain ⟨rfl, rfl, rfl⟩ := Call.amend.inj hc
    rw [UInt32.toNat_inj.mp hsym]
  | submit | cancel | reset => cases hc

/-- The participant has no order on the symbol. -/
def NoneResting (e : MatchingEngine k) (s p : Nat) : Prop :=
  ∀ b, e.books s = some b → ∀ o ∈ b.reference.all, o.participantId ≠ p

/-- A participant that submits nothing has nothing resting. -/
theorem Effect.noneResting (h : e.Effect pf a reply e') (hv : e.Valid pf)
    (ha : ¬ a.1.SubmitsFor s p) (hnone : e.NoneResting s.toNat p.toNat) :
    e'.NoneResting s.toNat p.toNat := by
  intro b₁ hb₁ o ho
  cases h.bookStep hv s.toNat with
  | untouched hbooks _ => exact hnone b₁ (hbooks ▸ hb₁) o ho
  | created b' hbook' hempty _ =>
    obtain rfl : b' = b₁ := Option.some.inj (hbook'.symm.trans hb₁)
    rw [hempty] at ho
    cases ho
  | called b b' c rm n hbook hbook' hforward hreply heffect =>
    obtain rfl : b' = b₁ := Option.some.inj (hbook'.symm.trans hb₁)
    have hvalid := (hv s.toNat b hbook).1
    cases heffect.origin hvalid.sound hvalid.uniqueIds ho with
    | rested m hm hleg _ =>
      rw [Order.participant_of_leg hleg]
      exact hnone b hbook m hm
    | added order hc _ hleg _ =>
      rw [Order.participant_of_leg hleg]
      intro hp
      obtain ⟨request, now, rfl, hs, hq, -⟩ := hforward.request hc hp
      exact ha ⟨hs, hq⟩
    | amended id quantity price m _ hrepl hleg _ =>
      rw [Order.participant_of_leg hleg]
      exact hnone b hbook m (RefBook.find_some hrepl.found).2.1

/-! ## Section 3: Order size -/

/-- No order of the participant on the symbol has more open than the limit. -/
def SizesWithin (e : MatchingEngine k) (s p : Nat) (limit : Int) : Prop :=
  ∀ b, e.books s = some b → ∀ o ∈ b.reference.all, o.participantId = p →
    o.remainingQuantity ≤ limit

/-- The call does not amend an order of the participant on the symbol to more
    than the limit. -/
def AmendsWithin (s p : UInt32) (limit : Int) (e : MatchingEngine k) (a : EngineCall × Clock) :
    Prop :=
  ∀ id quantity price b o, a.1 = .amend s id quantity price → e.books s.toNat = some b →
    b.reference.Replaces id quantity price o → o.participantId = p.toNat → quantity ≤ limit

/-- **Step**: with the limits in force, sizes stay within unless an amend
    exceeds the limit. -/
theorem Effect.sizesWithin (h : e.Effect pf a reply e') (hv : e.Valid pf)
    (hforce : e.riskManager.InForce s.toNat p.toNat limits)
    (hamend : AmendsWithin s p limits.maxOrderSize e a)
    (hsizes : e.SizesWithin s.toNat p.toNat limits.maxOrderSize) :
    e'.SizesWithin s.toNat p.toNat limits.maxOrderSize := by
  intro b₁ hb₁ o ho hp
  cases h.bookStep hv s.toNat with
  | untouched hbooks _ => exact hsizes b₁ (hbooks ▸ hb₁) o ho hp
  | created b' hbook' hempty _ =>
    obtain rfl : b' = b₁ := Option.some.inj (hbook'.symm.trans hb₁)
    rw [hempty] at ho
    cases ho
  | called b b' c rm n hbook hbook' hforward hreply heffect =>
    obtain rfl : b' = b₁ := Option.some.inj (hbook'.symm.trans hb₁)
    have hvalid := (hv s.toNat b hbook).1
    cases heffect.origin hvalid.sound hvalid.uniqueIds ho with
    | rested m hm hleg hle =>
      exact hle.trans (hsizes b hbook m hm ((Order.participant_of_leg hleg).symm.trans hp))
    | added order hc _ hleg hle =>
      have hpo := (Order.participant_of_leg hleg).symm.trans hp
      obtain ⟨request, now, -, -, -, rfl, hcheck⟩ := hforward.request hc hpo
      refine hle.trans ?_
      rw [← hforce.entry]
      exact (hforce.within hcheck).1
    | amended id quantity price m hc hrepl hleg hle =>
      have hpo := (Order.participant_of_leg hleg).symm.trans hp
      exact hle.trans (hamend id quantity price b m (hforward.amends hc) hbook hrepl hpo)

end running

end MatchingEngine

open MatchingEngine in
/-- **Order size**: limits set before the participant's first order on the
    symbol and not changed bound the open quantity of each of its orders there,
    at every point of a run in which no amend raises one of them beyond. -/
theorem max_order_size_enforced (pf : Platform) (k : Approach) (rm : RiskManager) (s p : UInt32)
    (limits : SymbolRiskLimits) (before after : List (EngineCall × Clock)) (now : Clock)
    (hbefore : ∀ a ∈ before, ¬ a.1.SubmitsFor s p) (hafter : ∀ a ∈ after, ¬ a.1.Configures s p)
    (hamends : Runs.Along (MatchingEngine.call pf) (AmendsWithin s p limits.maxOrderSize)
      ({ riskManager := rm } : MatchingEngine k)
      (before ++ (.setRiskLimits s p limits, now) :: after))
    (done rest : List (EngineCall × Clock))
    (hpoint : done ++ rest = before ++ (.setRiskLimits s p limits, now) :: after) :
    ∃ replies e, Runs.exec (MatchingEngine.call pf) ({ riskManager := rm } : MatchingEngine k)
        done = some (replies, e) ∧
      ∀ b, e.books s.toNat = some b → ∀ side, ∀ o ∈ b.resting side, o.participantId = p.toNat →
        o.remainingQuantity ≤ limits.maxOrderSize := by
  obtain ⟨replies, e, hrun, hsizes, -⟩ := Runs.exec_phases
    (P := fun e : MatchingEngine k => e.Running pf ∧ e.NoneResting s.toNat p.toNat)
    (N := fun e : MatchingEngine k => e.Running pf ∧
      e.riskManager.InForce s.toNat p.toNat limits ∧
      e.SizesWithin s.toNat p.toNat limits.maxOrderSize)
    (Q := fun e => e.SizesWithin s.toNat p.toNat limits.maxOrderSize) (R := fun _ _ _ => True)
    (fun e a ⟨hrunning, hnone⟩ ha _ => by
      obtain ⟨reply, e', hstep, heffect, hrunning', -⟩ := hrunning.step a
      exact ⟨reply, e', hstep, ⟨hrunning', heffect.noneResting hrunning.valid ha hnone⟩, trivial⟩)
    (fun e ⟨hrunning, hnone⟩ _ => by
      -- the limits are set while the participant has nothing resting
      refine ⟨_, _, rfl, ⟨⟨hrunning.valid, hrunning.submitted⟩, ?_, ?_⟩, trivial⟩
      · exact RiskManager.setLimits_inForce _ _ _ _
      · exact fun b hb o ho hp => absurd hp (hnone b hb o ho))
    (fun e a ⟨hrunning, hforce, hsizes⟩ ha hamend => by
      obtain ⟨reply, e', hstep, heffect, hrunning', -, hlegs⟩ := hrunning.step a
      exact ⟨reply, e', hstep, ⟨hrunning', heffect.inForce hlegs ha hforce,
        heffect.sizesWithin hrunning.valid hforce hamend hsizes⟩, trivial⟩)
    (by
      rintro e (⟨-, hnone⟩ | ⟨-, -, hsizes⟩)
      · exact fun b hb o ho hp => absurd hp (hnone b hb o ho)
      · exact hsizes)
    before after { riskManager := rm }
    ⟨running_initial rm, fun b hb => by cases hb⟩ hbefore hafter hamends done rest hpoint
  exact ⟨replies, e, hrun, fun b hb side o ho hp =>
    hsizes b hb o (RefBook.mem_all.mpr ⟨side, ho⟩) hp⟩

/-- An order of 5 is amended to 8 under a limit of 10. -/
theorem max_order_size_enforced_amended :
    ∃ replies e, Runs.exec (MatchingEngine.call .int64) ({} : MatchingEngine .array)
        [(.addSymbol 1 90 110 4 .none, fun _ => 0),
         (.setRiskLimits 1 7 { maxOrderSize := 10 }, fun _ => 0),
         (.submit ⟨0, 1, 7, .sell, .limit, 100, 5, .gtc⟩, fun _ => 0),
         (.amend 1 1 8 none, fun _ => 0)] = some (replies, e) ∧
      ∀ b, e.books 1 = some b → ∀ side, ∀ o ∈ b.resting side, o.participantId = 7 →
        o.remainingQuantity ≤ 10 := by
  refine max_order_size_enforced .int64 .array {} 1 7 { maxOrderSize := 10 }
    [(.addSymbol 1 90 110 4 .none, fun _ => 0)]
    [(.submit ⟨0, 1, 7, .sell, .limit, 100, 5, .gtc⟩, fun _ => 0), (.amend 1 1 8 none, fun _ => 0)]
    (fun _ => 0) (by simp [EngineCall.SubmitsFor]) (by simp [EngineCall.Configures]) ?_ _ []
    (List.append_nil _)
  apply Runs.along_of_forall
  intro a ha e id quantity price b o hamend
  -- the one amend of the run is to 8
  simp only [List.cons_append, List.nil_append, List.mem_cons, List.not_mem_nil, or_false] at ha
  rcases ha with rfl | rfl | rfl | rfl <;> cases hamend
  intro _ _ _
  decide

/-- The same order is amended to 50: `amend_order` makes no risk check. -/
theorem max_order_size_exceeded :
    (Runs.exec (MatchingEngine.call .int64) ({} : MatchingEngine .array)
      [(.addSymbol 1 90 110 4 .none, fun _ => 0),
       (.setRiskLimits 1 7 { maxOrderSize := 10 }, fun _ => 0),
       (.submit ⟨0, 1, 7, .sell, .limit, 100, 5, .gtc⟩, fun _ => 0),
       (.amend 1 1 50 none, fun _ => 0)]).map
        (fun x => (x.2.books 1).map fun b => b.resting .sell) =
      some (some [⟨1, 100, 50, 50, 0, 1, 7, .sell, .limit, .gtc⟩]) := by
  decide +kernel

/-! ## Section 4: Position -/

/-- The prospective position, with the arithmetic done once. -/
theorem SymbolParticipantState.prospective_eq (pf : Platform) (st : SymbolParticipantState)
    (side : Side) (quantity : Int) :
    st.prospective pf side quantity = pf.wrap (st.netPosition + side.signed quantity) := by
  unfold prospective
  cases side with
  | buy => rfl
  | sell =>
    show pf.wrap (st.netPosition + pf.wrap (-quantity)) = pf.wrap (st.netPosition + -quantity)
    rw [add_comm, pf.wrap_add, add_comm]

/-- A trade list moves a side no further than the participant traded on it. -/
theorem signed_netTraded_le {s p : Nat} (side : Side) (x : Int) {ts : List Trade}
    (hpos : ∀ t ∈ ts, 0 < t.quantity) :
    side.signed (x + netTraded s p ts) ≤ side.signed x + traded s p side ts := by
  have hbuy := traded_nonneg s p .buy hpos
  have hsell := traded_nonneg s p .sell hpos
  unfold netTraded
  cases side <;> simp only [Side.signed] <;> omega

theorem traded_le_of_prefix (s p : Nat) (side : Side) {ts us : List Trade} (h : ts <+: us)
    (hpos : ∀ t ∈ us, 0 < t.quantity) : traded s p side ts ≤ traded s p side us := by
  obtain ⟨vs, rfl⟩ := h
  have hrest := traded_nonneg s p side
    fun t (ht : t ∈ vs) => hpos t (by simp [ht])
  rw [traded_append]
  omega

namespace MatchingEngine

section positions

variable {k : Approach} {pf : Platform} {e e' : MatchingEngine k} {a : EngineCall × Clock}
  {reply : Reply} {s p : UInt32} {limits : SymbolRiskLimits} {limit : Int}

/-- The open quantity of a participant on a side of a symbol. -/
def openOn (e : MatchingEngine k) (s p : Nat) (side : Side) : Int :=
  ((e.books s).map fun b => b.reference.openOn p side).getD 0

theorem openOn_of_book {s p : Nat} {b : k.Book} (h : e.books s = some b) (side : Side) :
    e.openOn s p side = b.reference.openOn p side := by
  simp [openOn, h]

theorem Valid.openOn_nonneg (h : e.Valid pf) (s p : Nat) (side : Side) : 0 ≤ e.openOn s p side := by
  unfold openOn
  cases hb : e.books s with
  | none => exact le_rfl
  | some b => exact (h s b hb).1.sound.openOn_nonneg p side

/-- **Exposure of the engine**: a call turns open quantity into trades, and
    adds only what it brings to the book. -/
theorem Effect.exposure (h : e.Effect pf a reply e') (hv : e.Valid pf) (s p : Nat) (side : Side) :
    e'.openOn s p side + traded s p side reply.trades ≤ e.openOn s p side ∨
      ∃ b c rm n quantity, e.books s = some b ∧ Forwards pf e a s c rm n ∧
        b.reference.Brings p side c.1 quantity ∧
        e'.openOn s p side + traded s p side reply.trades ≤ e.openOn s p side + quantity := by
  cases h.bookStep hv s with
  | untouched hbooks htrades =>
    left
    have hnone : traded s p side reply.trades = 0 := by
      unfold traded
      rw [List.filter_eq_nil_iff.mpr fun t ht => by simp [htrades t ht]]
      rfl
    rw [hnone, add_zero]
    unfold openOn
    rw [hbooks]
  | created b' hbook' hempty htrades =>
    left
    have horders : b'.reference.orders side = [] :=
      List.sublist_nil.mp (hempty ▸ RefBook.orders_sublist_all b'.reference side)
    rw [htrades, traded_nil, openOn_of_book hbook', RefBook.openOn, horders]
    exact hv.openOn_nonneg s p side
  | called b b' c rm n hbook hbook' hforward hreply heffect =>
    obtain ⟨hvalid, hsym⟩ := hv s b hbook
    have hexp := heffect.exposure hvalid.sound hvalid.uniqueIds p side
    rw [show b.reference.symbol = s from hsym] at hexp
    rw [openOn_of_book hbook, openOn_of_book hbook']
    exact hexp.imp_right fun ⟨quantity, hbrings, hle⟩ =>
      ⟨b, c, rm, n, quantity, hbook, hforward, hbrings, hle⟩

/-- Neither side of the position can be taken past the limit by what is open. -/
def ExposureWithin (e : MatchingEngine k) (s p : Nat) (limit : Int) : Prop :=
  ∀ side : Side, side.signed (e.riskManager.position s p) + e.openOn s p side ≤ limit

/-- The condition on a submission of the pair: if the checks let it through,
    the position, all that is open on its side and its own quantity together
    stay within the limit.  Where nothing is open and 64 bits hold the sum,
    the risk check sees to that. -/
def SubmitFits (pf : Platform) (s p : UInt32) (limit : Int) (e : MatchingEngine k)
    (request : OrderRequest) (now : Clock) : Prop :=
  (e.riskManager.checkNewOrder pf s.toNat p.toNat request.side request.quantity (now 0)).1 =
      .none →
    ∀ b ∈ e.books s.toNat,
      b.reference.rejectReason (request.toOrder (e.assignId request).1.toNat (now 0)) = none →
      b.reference.openOn p.toNat request.side = 0 ∧
          request.side.signed (e.riskManager.position s.toNat p.toNat) + request.quantity <
            2 ^ 63 ∨
        request.side.signed (e.riskManager.position s.toNat p.toNat) +
          b.reference.openOn p.toNat request.side + request.quantity ≤ limit

/-- The condition on an amend of one of the pair's orders: with the new
    quantity in place of the old, the position and all that is open on its
    side stay within the limit. -/
def AmendFits (s p : UInt32) (limit : Int) (e : MatchingEngine k) (id : OrderId) (quantity : Int)
    (price : Option Int) : Prop :=
  ∀ b ∈ e.books s.toNat, ∀ o ∈ b.reference.find id, b.reference.Replaces id quantity price o →
    o.participantId = p.toNat →
    o.side.signed (e.riskManager.position s.toNat p.toNat) + b.reference.openOn p.toNat o.side +
      (quantity - o.remainingQuantity) ≤ limit

instance (pf : Platform) (s p : UInt32) (limit : Int) (e : MatchingEngine k)
    (request : OrderRequest) (now : Clock) : Decidable (SubmitFits pf s p limit e request now) := by
  unfold SubmitFits
  exact inferInstance

instance (s p : UInt32) (limit : Int) (e : MatchingEngine k) (id : OrderId) (quantity : Int)
    (price : Option Int) : Decidable (AmendFits s p limit e id quantity price) := by
  unfold AmendFits
  exact inferInstance

/-- What a call brings to the market fits the position limit. -/
def ExposureFits (pf : Platform) (s p : UInt32) (limit : Int) (e : MatchingEngine k) :
    EngineCall × Clock → Prop
  | (.submit request, now) => request.symbol = s → request.participantId = p →
      SubmitFits pf s p limit e request now
  | (.amend symbol id quantity price, _) => symbol = s → AmendFits s p limit e id quantity price
  | _ => True

instance (pf : Platform) (s p : UInt32) (limit : Int) (e : MatchingEngine k) :
    (a : EngineCall × Clock) → Decidable (ExposureFits pf s p limit e a)
  | (.submit request, now) => inferInstanceAs (Decidable (request.symbol = s →
      request.participantId = p → SubmitFits pf s p limit e request now))
  | (.amend symbol id quantity price, _) =>
      inferInstanceAs (Decidable (symbol = s → AmendFits s p limit e id quantity price))
  | (.addSymbol .., _) | (.setRiskLimits .., _) | (.cancel .., _) | (.resetSymbol .., _) =>
      instDecidableTrue

/-- An exposure within the limit leaves the position within it. -/
theorem ExposureWithin.position (h : e.ExposureWithin s.toNat p.toNat limit) (hv : e.Valid pf)
    (side : Side) : side.signed (e.riskManager.position s.toNat p.toNat) ≤ limit := by
  have hopen := hv.openOn_nonneg s.toNat p.toNat side
  have hside := h side
  omega

theorem ExposureWithin.abs_position (h : e.ExposureWithin s.toNat p.toNat limit)
    (hv : e.Valid pf) : |e.riskManager.position s.toNat p.toNat| ≤ limit :=
  abs_le'.mpr ⟨h.position hv .buy, h.position hv .sell⟩

/-- With nothing open and no overflow, an order the check lets through fits. -/
theorem submit_fits_of_check {rm : RiskManager}
    (hwrap : ∀ x, -2 ^ 63 ≤ x → x < 2 ^ 63 → pf.wrap x = x)
    (hforce : rm.InForce s.toNat p.toNat limits) (hlimit : limits.maxPosition < 2 ^ 63)
    (hposition : ∀ side : Side, side.signed (rm.position s.toNat p.toNat) ≤ limits.maxPosition)
    {side : Side} {quantity : Int} {now : Timestamp} (hq : 0 < quantity)
    (hfit : side.signed (rm.position s.toNat p.toNat) + quantity < 2 ^ 63)
    (hcheck : (rm.checkNewOrder pf s.toNat p.toNat side quantity now).1 = .none) :
    side.signed (rm.position s.toNat p.toNat) + quantity ≤ limits.maxPosition := by
  obtain ⟨-, hle, hge⟩ := hforce.within hcheck
  rw [SymbolParticipantState.prospective_eq, hforce.entry] at hle hge
  have hbuy := hposition .buy
  have hsell := hposition .sell
  unfold RiskManager.position at *
  simp only [Side.signed] at hbuy hsell
  rw [hwrap (-limits.maxPosition) (by omega) (by omega)] at hge
  cases side with
  | buy =>
    simp only [Side.signed] at *
    rw [hwrap _ (by omega) (by omega)] at hle
    exact hle
  | sell =>
    simp only [Side.signed] at *
    rw [hwrap _ (by omega) (by omega)] at hge
    omega

/-- **Step**: with the limits in force, what a fitting call leaves open and
    what it trades stay within the position limit. -/
theorem Effect.exposure_fits (h : e.Effect pf a reply e') (hv : e.Valid pf)
    (hwrap : ∀ x, -2 ^ 63 ≤ x → x < 2 ^ 63 → pf.wrap x = x)
    (hforce : e.riskManager.InForce s.toNat p.toNat limits) (hlimit : limits.maxPosition < 2 ^ 63)
    (hwithin : e.ExposureWithin s.toNat p.toNat limits.maxPosition)
    (hfits : ExposureFits pf s p limits.maxPosition e a) (side : Side) :
    side.signed (e.riskManager.position s.toNat p.toNat) + e'.openOn s.toNat p.toNat side +
      traded s.toNat p.toNat side reply.trades ≤ limits.maxPosition := by
  have hside := hwithin side
  rcases h.exposure hv s.toNat p.toNat side with hle | ⟨b, c, rm, n, quantity, hbook, hforward,
    hbrings, hle⟩
  · omega
  generalize hc : c.1 = c₁ at hbrings
  cases hbrings with
  | added hok hp hos =>
    obtain ⟨request, now, rfl, hs, hq, rfl, hcheck⟩ := hforward.request hc hp
    have hrs : request.side = side := hos
    have hrq : request.quantity = (request.toOrder (e.assignId request).1.toNat (now 0)).quantity :=
      rfl
    have hpos := (RefBook.rejectReason_eq_none.mp hok).1
    rw [← hrq] at hle hpos
    rw [openOn_of_book hbook] at hle
    rcases hfits hs hq hcheck b hbook hok with ⟨hopen, hfit⟩ | hfit
    · have hsum := submit_fits_of_check hwrap hforce hlimit (fun side => hwithin.position hv side)
        hpos hfit hcheck
      rw [hrs] at hopen hsum
      omega
    · rw [hrs] at hfit
      omega
  | amended hrepl hp hos =>
    obtain ⟨c, now⟩ := a
    have hamend := hforward.amends hc
    subst hamend
    have hfit := hfits rfl b hbook _ hrepl.found hrepl hp
    rw [openOn_of_book hbook] at hle
    rw [hos] at hfit
    omega

/-- **Step**: a participant that submits nothing keeps its exposure. -/
theorem Effect.exposure_idle (h : e.Effect pf a reply e') (hv : e.Valid pf)
    (ha : ¬ a.1.SubmitsFor s p) (hnone : e.NoneResting s.toNat p.toNat)
    (hwithin : e.ExposureWithin s.toNat p.toNat limit) (side : Side) :
    side.signed (e.riskManager.position s.toNat p.toNat) + e'.openOn s.toNat p.toNat side +
      traded s.toNat p.toNat side reply.trades ≤ limit := by
  have hside := hwithin side
  rcases h.exposure hv s.toNat p.toNat side with hle | ⟨b, c, rm, n, quantity, hbook, hforward,
    hbrings, -⟩
  · omega
  generalize hc : c.1 = c₁ at hbrings
  cases hbrings with
  | added _ hp _ =>
    obtain ⟨request, now, rfl, hs, hq, -⟩ := hforward.request hc hp
    exact absurd ⟨hs, hq⟩ ha
  | amended hrepl hp _ =>
    exact absurd hp (hnone b hbook _ (RefBook.find_some hrepl.found).2.1)

/-- What is left within the limit while the trades of a call are credited. -/
theorem Effect.position_within (h : e.Effect pf a reply e')
    (hwrap : ∀ x, -2 ^ 63 ≤ x → x < 2 ^ 63 → pf.wrap x = x) (hlimit : limit < 2 ^ 63)
    (hv : e.Valid pf) (hv' : e'.Valid pf) (hwithin : e.ExposureWithin s.toNat p.toNat limit)
    (hpos : ∀ t ∈ reply.trades, 0 < t.quantity)
    (hlegs : ∀ t ∈ reply.trades, t.takerParticipantId < 2 ^ 32 ∧ t.makerParticipantId < 2 ^ 32)
    (hkey : ∀ side : Side, side.signed (e.riskManager.position s.toNat p.toNat) +
      e'.openOn s.toNat p.toNat side + traded s.toNat p.toNat side reply.trades ≤ limit) :
    e'.ExposureWithin s.toNat p.toNat limit ∧ ∀ ts, ts <+: reply.trades →
      |(ts.foldl (RiskManager.onTrade pf) e.riskManager).position s.toNat p.toNat| ≤ limit := by
  -- the position is within the limit, so its arithmetic so far was exact
  have hexact : ∀ x : Int, (∀ side : Side, side.signed x ≤ limit) → pf.wrap x = x := by
    intro x hx
    have hbuy := hx .buy
    have hsell := hx .sell
    simp only [Side.signed] at hbuy hsell
    exact hwrap x (by omega) (by omega)
  have hstart := hexact _ fun side => hwithin.position hv side
  have hmid : ∀ ts, ts <+: reply.trades → ∀ side : Side,
      side.signed (e.riskManager.position s.toNat p.toNat + netTraded s.toNat p.toNat ts) +
        e'.openOn s.toNat p.toNat side ≤ limit := by
    intro ts hts side
    have hle := signed_netTraded_le (s := s.toNat) (p := p.toNat) side
      (e.riskManager.position s.toNat p.toNat) fun t ht => hpos t (hts.mem ht)
    have hprefix := traded_le_of_prefix s.toNat p.toNat side hts hpos
    have hlast := hkey side
    omega
  have hmid' : ∀ ts, ts <+: reply.trades → ∀ side : Side,
      side.signed (e.riskManager.position s.toNat p.toNat + netTraded s.toNat p.toNat ts) ≤
        limit := by
    intro ts hts side
    have hle := hmid ts hts side
    have hopen := hv'.openOn_nonneg s.toNat p.toNat side
    omega
  constructor
  · intro side
    rw [h.position p.toNat_lt hlegs hstart.symm, hexact _ (hmid' _ List.prefix_rfl)]
    exact hmid _ List.prefix_rfl side
  · intro ts hts
    rw [RiskManager.trades_position p.toNat_lt (fun t ht => hlegs t (hts.mem ht)) hstart.symm,
      hexact _ (hmid' ts hts), abs_le']
    exact ⟨hmid' ts hts .buy, hmid' ts hts .sell⟩

/-- While the participant has submitted nothing, every call keeps its position
    within a limit that it is within. -/
theorem Running.step_idle (h : e.Running pf)
    (hwrap : ∀ x, -2 ^ 63 ≤ x → x < 2 ^ 63 → pf.wrap x = x) (hlimit : limit < 2 ^ 63)
    (hnone : e.NoneResting s.toNat p.toNat) (hwithin : e.ExposureWithin s.toNat p.toNat limit)
    (ha : ¬ a.1.SubmitsFor s p) :
    ∃ reply e', e.call pf a = some (reply, e') ∧ e'.Running pf ∧
      e'.NoneResting s.toNat p.toNat ∧ e'.ExposureWithin s.toNat p.toNat limit ∧
      ∀ ts, ts <+: reply.trades →
        |(ts.foldl (RiskManager.onTrade pf) e.riskManager).position s.toNat p.toNat| ≤ limit := by
  obtain ⟨reply, e', hstep, heffect, hrunning', hpos, hlegs⟩ := h.step a
  obtain ⟨hwithin', hmid⟩ := heffect.position_within hwrap hlimit h.valid hrunning'.valid hwithin
    hpos hlegs fun side => heffect.exposure_idle h.valid ha hnone hwithin side
  exact ⟨reply, e', hstep, hrunning', heffect.noneResting h.valid ha hnone, hwithin', hmid⟩

end positions

end MatchingEngine

open MatchingEngine in
/-- **Position limit**: limits set before the participant's first order on the
    symbol and not changed bound its position there, at every point of a run
    whose calls fit, and after every trade of the next call. -/
theorem position_limit_kept (pf : Platform)
    (hwrap : ∀ x, -2 ^ 63 ≤ x → x < 2 ^ 63 → pf.wrap x = x) (k : Approach) (rm : RiskManager)
    (s p : UInt32) (limits : SymbolRiskLimits) (hlimit : limits.maxPosition < 2 ^ 63)
    (hstart : |rm.position s.toNat p.toNat| ≤ limits.maxPosition)
    (before after : List (EngineCall × Clock)) (now : Clock)
    (hbefore : ∀ a ∈ before, ¬ a.1.SubmitsFor s p) (hafter : ∀ a ∈ after, ¬ a.1.Configures s p)
    (hfits : Runs.Along (MatchingEngine.call pf) (ExposureFits pf s p limits.maxPosition)
      ({ riskManager := rm } : MatchingEngine k)
      (before ++ (.setRiskLimits s p limits, now) :: after))
    (done rest : List (EngineCall × Clock))
    (hpoint : done ++ rest = before ++ (.setRiskLimits s p limits, now) :: after) :
    ∃ replies e, Runs.exec (MatchingEngine.call pf) ({ riskManager := rm } : MatchingEngine k)
        done = some (replies, e) ∧
      |e.riskManager.position s.toNat p.toNat| ≤ limits.maxPosition ∧
      ∀ a ∈ rest.head?, ∃ reply e', e.call pf a = some (reply, e') ∧
        ∀ ts, ts <+: reply.trades →
          |(ts.foldl (RiskManager.onTrade pf) e.riskManager).position s.toNat p.toNat| ≤
            limits.maxPosition := by
  refine Runs.exec_phases
    (P := fun e : MatchingEngine k => e.Running pf ∧ e.NoneResting s.toNat p.toNat ∧
      e.ExposureWithin s.toNat p.toNat limits.maxPosition)
    (N := fun e : MatchingEngine k => e.Running pf ∧
      e.riskManager.InForce s.toNat p.toNat limits ∧
      e.ExposureWithin s.toNat p.toNat limits.maxPosition)
    (Q := fun e => |e.riskManager.position s.toNat p.toNat| ≤ limits.maxPosition)
    (R := fun e _ reply => ∀ ts, ts <+: reply.trades →
      |(ts.foldl (RiskManager.onTrade pf) e.riskManager).position s.toNat p.toNat| ≤
        limits.maxPosition) ?_ ?_ ?_ ?_ before after { riskManager := rm }
    ⟨running_initial rm, (fun b hb => by cases hb), ?_⟩ hbefore hafter hfits done rest hpoint
  · rintro e a ⟨hrunning, hnone, hwithin⟩ ha -
    obtain ⟨reply, e', hstep, hrunning', hnone', hwithin', hmid⟩ :=
      hrunning.step_idle hwrap hlimit hnone hwithin ha
    exact ⟨reply, e', hstep, ⟨hrunning', hnone', hwithin'⟩, hmid⟩
  · -- setting the limits is such a step, and puts them in force
    rintro e ⟨hrunning, hnone, hwithin⟩ -
    obtain ⟨reply, e', hstep, hrunning', -, hwithin', hmid⟩ :=
      hrunning.step_idle (a := (.setRiskLimits s p limits, now)) hwrap hlimit hnone hwithin
        (by simp [EngineCall.SubmitsFor])
    refine ⟨reply, e', hstep, ⟨hrunning', ?_, hwithin'⟩, hmid⟩
    obtain ⟨-, rfl⟩ := Prod.mk.inj (Option.some.inj hstep)
    exact RiskManager.setLimits_inForce _ _ _ _
  · rintro e a ⟨hrunning, hforce, hwithin⟩ ha hfit
    obtain ⟨reply, e', hstep, heffect, hrunning', hpos, hlegs⟩ := hrunning.step a
    have hv := hrunning.valid
    obtain ⟨hwithin', hmid⟩ := heffect.position_within hwrap hlimit hv hrunning'.valid hwithin
      hpos hlegs fun side => heffect.exposure_fits hv hwrap hforce hlimit hwithin hfit side
    exact ⟨reply, e', hstep, ⟨hrunning', heffect.inForce hlegs ha hforce, hwithin'⟩, hmid⟩
  · rintro e (⟨hrunning, -, hwithin⟩ | ⟨hrunning, -, hwithin⟩)
    · exact hwithin.abs_position hrunning.valid
    · exact hwithin.abs_position hrunning.valid
  · -- nothing is open yet
    intro side
    have hpos := abs_le'.mp hstart
    show side.signed (rm.position s.toNat p.toNat) + 0 ≤ limits.maxPosition
    rw [add_zero]
    cases side with
    | buy => exact hpos.1
    | sell => exact hpos.2

/-- Two buys of 4 and 5 rest under a limit of 10 and are both filled. -/
theorem position_limit_kept_both_filled :
    ∃ replies e, Runs.exec (MatchingEngine.call .int64) ({} : MatchingEngine .array)
        [(.addSymbol 1 90 110 4 .none, fun _ => 0),
         (.setRiskLimits 1 7 { maxPosition := 10 }, fun _ => 0),
         (.submit ⟨0, 1, 7, .buy, .limit, 100, 4, .gtc⟩, fun _ => 0),
         (.submit ⟨0, 1, 7, .buy, .limit, 100, 5, .gtc⟩, fun _ => 0),
         (.submit ⟨0, 1, 8, .sell, .limit, 100, 9, .gtc⟩, fun _ => 0)] = some (replies, e) ∧
      |e.riskManager.position 1 7| ≤ 10 := by
  obtain ⟨replies, e, hrun, hposition, -⟩ := position_limit_kept .int64
    (fun x hlo hhi => by
      show Int.bmod x (2 ^ 64) = x
      rw [Int.bmod_def]
      split <;> omega)
    .array {} 1 7 { maxPosition := 10 } (by decide) (by decide)
    [(.addSymbol 1 90 110 4 .none, fun _ => 0)]
    [(.submit ⟨0, 1, 7, .buy, .limit, 100, 4, .gtc⟩, fun _ => 0),
     (.submit ⟨0, 1, 7, .buy, .limit, 100, 5, .gtc⟩, fun _ => 0),
     (.submit ⟨0, 1, 8, .sell, .limit, 100, 9, .gtc⟩, fun _ => 0)]
    (fun _ => 0) (by simp [EngineCall.SubmitsFor]) (by simp [EngineCall.Configures])
    (by decide +kernel) _ [] (List.append_nil _)
  exact ⟨replies, e, hrun, hposition⟩

/-- Two buys of 8 each pass the check while the position is 0; filled, they
    make it 16. -/
theorem position_limit_breached :
    (Runs.exec (MatchingEngine.call .int64) ({} : MatchingEngine .array)
      [(.addSymbol 1 90 110 4 .none, fun _ => 0),
       (.setRiskLimits 1 7 { maxPosition := 10 }, fun _ => 0),
       (.submit ⟨0, 1, 7, .buy, .limit, 100, 8, .gtc⟩, fun _ => 0),
       (.submit ⟨0, 1, 7, .buy, .limit, 100, 8, .gtc⟩, fun _ => 0),
       (.submit ⟨0, 1, 8, .sell, .limit, 100, 16, .gtc⟩, fun _ => 0)]).map
        (fun x => x.2.riskManager.position 1 7) = some 16 := by
  decide +kernel

end LightningLob
