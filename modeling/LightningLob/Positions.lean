import LightningLob.EngineRuns
import Mathlib.Algebra.BigOperators.Group.Finset.Piecewise

/-! # Positions are the trade tape

    Every trade is credited once to its buyer and debited once from its
    seller, so after any run the position of a pair is what the tape says, up
    to 64-bit wrapping, and the positions of a symbol cancel out.  The legs of
    a trade are those of orders submitted on its symbol. -/

namespace LightningLob

/-! ## Section 1: Reading positions off a tape -/

/-- Who is on a side of a trade. -/
def Trade.participantOn (t : Trade) (side : Side) : ParticipantId :=
  if t.takerSide = side then t.takerParticipantId else t.makerParticipantId

/-- The quantity a participant traded on a side of a symbol. -/
def traded (symbol : SymbolId) (participant : ParticipantId) (side : Side) (trades : List Trade) :
    Int :=
  ((trades.filter fun t => t.symbol = symbol ∧ t.participantOn side = participant).map
    Trade.quantity).sum

/-- What a participant bought of a symbol less what it sold. -/
def netTraded (symbol : SymbolId) (participant : ParticipantId) (trades : List Trade) : Int :=
  traded symbol participant .buy trades - traded symbol participant .sell trades

section reading

variable {s p : Nat} {side : Side} {t : Trade} {ts us : List Trade}

@[simp] theorem traded_nil : traded s p side [] = 0 := rfl

theorem traded_cons : traded s p side (t :: ts) =
    (if t.symbol = s ∧ t.participantOn side = p then t.quantity else 0) + traded s p side ts := by
  unfold traded
  by_cases h : t.symbol = s ∧ t.participantOn side = p
  · rw [List.filter_cons_of_pos (by simpa using h), if_pos h]
    simp
  · rw [List.filter_cons_of_neg (by simpa using h), if_neg h]
    simp

theorem traded_append : traded s p side (ts ++ us) = traded s p side ts + traded s p side us := by
  simp [traded]

theorem traded_nonneg (s p : Nat) (side : Side) (h : ∀ t ∈ ts, 0 < t.quantity) :
    0 ≤ traded s p side ts := by
  induction ts with
  | nil => exact le_rfl
  | cons t ts ih =>
    have hrest := ih fun x hx => h x (by simp [hx])
    have ht := h t (by simp)
    rw [traded_cons]
    split <;> omega

@[simp] theorem netTraded_nil : netTraded s p [] = 0 := rfl

theorem netTraded_append : netTraded s p (ts ++ us) = netTraded s p ts + netTraded s p us := by
  unfold netTraded
  rw [traded_append, traded_append]
  omega

end reading

/-! ## Section 2: What trades do to a position -/

/-- A quantity as a position counts it on a side. -/
def Side.signed : Side → Int → Int
  | .buy, quantity => quantity
  | .sell, quantity => -quantity

/-- A trade as the position of a pair counts it: one leg may be the pair's,
    or both. -/
theorem netTraded_single (s p : Nat) (t : Trade) : netTraded s p [t] =
    (if s = t.symbol ∧ p = t.takerParticipantId then t.takerSide.signed t.quantity else 0) +
      if s = t.symbol ∧ p = t.makerParticipantId then t.takerSide.opposite.signed t.quantity
        else 0 := by
  unfold netTraded
  rw [traded_cons, traded_cons, traded_nil, traded_nil]
  unfold Trade.participantOn
  cases t.takerSide <;>
    simp only [Side.opposite, Side.signed, @eq_comm _ s, @eq_comm _ p, reduceCtorEq, if_true,
      if_false] <;>
    split_ifs <;> omega

namespace RiskManager

section credit

variable {pf : Platform} {rm : RiskManager} {s p : Nat} {x : Int}

/-- A fill adds its signed quantity to the exact position. -/
theorem onFill_position (hp : p < 2 ^ 32) {q : Nat} (hq : q < 2 ^ 32) (t : Nat) (side : Side)
    (quantity : Int) (h : rm.position s p = pf.wrap x) :
    (rm.onFill pf t q side quantity).position s p =
      pf.wrap (x + if s = t ∧ p = q then side.signed quantity else 0) := by
  unfold position at h ⊢
  by_cases hpair : s = t ∧ p = q
  · obtain ⟨rfl, rfl⟩ := hpair
    rw [onFill_entry_self, if_pos ⟨rfl, rfl⟩]
    show pf.wrap ((rm.entry s p).netPosition + signedQuantity pf side quantity) = _
    rw [h, pf.wrap_add]
    cases side with
    | buy => rfl
    | sell =>
      show pf.wrap (x + pf.wrap (-quantity)) = pf.wrap (x + -quantity)
      rw [add_comm, pf.wrap_add, add_comm]
  · rw [onFill_entry_of_ne hq hp hpair, if_neg hpair, add_zero]
    exact h

/-- A trade adds what it nets to the exact position. -/
theorem onTrade_position (hp : p < 2 ^ 32) {t : Trade} (ht : t.takerParticipantId < 2 ^ 32)
    (hm : t.makerParticipantId < 2 ^ 32) (h : rm.position s p = pf.wrap x) :
    (rm.onTrade pf t).position s p = pf.wrap (x + netTraded s p [t]) := by
  have htaker := onFill_position hp ht t.symbol t.takerSide t.quantity h
  have hmaker := onFill_position hp hm t.symbol t.takerSide.opposite t.quantity htaker
  unfold onTrade
  rw [hmaker, netTraded_single, add_assoc]

theorem trades_position (hp : p < 2 ^ 32) {ts : List Trade}
    (hts : ∀ t ∈ ts, t.takerParticipantId < 2 ^ 32 ∧ t.makerParticipantId < 2 ^ 32)
    (h : rm.position s p = pf.wrap x) :
    (ts.foldl (onTrade pf) rm).position s p = pf.wrap (x + netTraded s p ts) := by
  induction ts generalizing rm x with
  | nil => simpa using h
  | cons t ts ih =>
    obtain ⟨ht, hm⟩ := hts t (by simp)
    have hrest := ih (fun u hu => hts u (by simp [hu])) (onTrade_position hp ht hm h)
    rw [List.foldl_cons, hrest, add_assoc, ← netTraded_append]
    rfl

end credit

end RiskManager

namespace MatchingEngine

variable {k : Approach} {pf : Platform} {e e' : MatchingEngine k} {a : EngineCall × Clock}
  {reply : Reply} {s p : Nat}

/-- On its way to a book a call moves no limits and no position. -/
theorem Forwards.keeps {symbol : SymbolId} {c : Call × Clock} {rm : RiskManager} {n : UInt64}
    (h : Forwards pf e a symbol c rm n) (hp : p < 2 ^ 32) :
    (rm.entry s p).limits = (e.riskManager.entry s p).limits ∧
      (rm.entry s p).netPosition = (e.riskManager.entry s p).netPosition := by
  cases h with
  | @submit request now rm hcheck =>
    have hkeeps := e.riskManager.checkNewOrder_keeps (s := request.symbol.toNat) (t := s) pf
      request.participantId.toNat_lt hp request.side request.quantity (now 0)
    rw [hcheck] at hkeeps
    exact hkeeps
  | cancel | amend | reset => exact ⟨rfl, rfl⟩

/-- **Step**: a call adds what its trades net to the exact position. -/
theorem Effect.position (h : e.Effect pf a reply e') (hp : p < 2 ^ 32)
    (hlegs : ∀ t ∈ reply.trades, t.takerParticipantId < 2 ^ 32 ∧ t.makerParticipantId < 2 ^ 32)
    {x : Int} (hx : e.riskManager.position s p = pf.wrap x) :
    e'.riskManager.position s p = pf.wrap (x + netTraded s p reply.trades) := by
  cases h with
  | idle | registered => simpa using hx
  | @limited symbol participant limits now =>
    rw [netTraded_nil, add_zero, ← hx]
    show ((e.riskManager.setLimits symbol.toNat participant.toNat limits).entry s p).netPosition = _
    by_cases hpair : s = symbol.toNat ∧ p = participant.toNat
    · rw [hpair.1, hpair.2, RiskManager.setLimits_entry_self]
      rfl
    · rw [RiskManager.setLimits_entry_of_ne participant.toNat_lt hp hpair]
      rfl
  | @refused request now reason rm b _ hcheck _ =>
    have hkeeps := e.riskManager.checkNewOrder_keeps (s := request.symbol.toNat) (t := s) pf
      request.participantId.toNat_lt hp request.side request.quantity (now 0)
    rw [hcheck] at hkeeps
    rw [netTraded_nil, add_zero, ← hx]
    exact hkeeps.2
  | booked hbook hforward _ =>
    exact RiskManager.trades_position hp hlegs ((hforward.keeps hp).2.trans hx)

end MatchingEngine

/-! ## Section 3: Whose orders the legs are -/

/-- A call of an engine run with its reply. -/
abbrev EngineEvent : Type := (EngineCall × Clock) × Reply

/-- The trades of an engine's tape, in order. -/
def engineTrades (tape : List EngineEvent) : List Trade := tape.flatMap fun x => x.2.trades

/-- The order of the leg was submitted on the symbol by its participant, on
    its side, and was accepted under its id. -/
def Submitted (tape : List EngineEvent) (symbol : SymbolId) (leg : Leg) : Prop :=
  ∃ request now report trades, ((.submit request, now), ⟨.report report, trades⟩) ∈ tape ∧
    request.symbol.toNat = symbol ∧ report.status ≠ .rejected ∧
    leg = ⟨report.orderId, request.participantId.toNat, request.side⟩

section attribution

variable {k : Approach} {pf : Platform} {e e' : MatchingEngine k} {a : EngineCall × Clock}
  {reply : Reply} {tape : List EngineEvent} {symbol : SymbolId} {leg : Leg}

theorem Submitted.mono (h : Submitted tape symbol leg) (x : EngineEvent) :
    Submitted (tape ++ [x]) symbol leg := by
  obtain ⟨request, now, report, trades, hmem, h⟩ := h
  exact ⟨request, now, report, trades, List.mem_append_left _ hmem, h⟩

theorem Submitted.participant_lt (h : Submitted tape symbol leg) : leg.participantId < 2 ^ 32 := by
  obtain ⟨request, now, report, trades, -, -, -, rfl⟩ := h
  exact request.participantId.toNat_lt

/-- An order a book accepts from the engine was submitted. -/
theorem MatchingEngine.Forwards.submitted {c : Call × Clock} {rm : RiskManager} {n : UInt64}
    (h : Forwards pf e a symbol c rm n) {order : Order} (hc : c.1 = .add order) {r : RefBook}
    (hok : r.rejectReason order = none) :
    Submitted (tape ++ [(a, (r.call pf c).1)]) symbol order.leg := by
  cases h with
  | @submit request now rm _ =>
    have horder := Call.add.inj hc
    obtain ⟨hid, hstatus⟩ := RefBook.addOrder_reported pf (fun i => now (i + 1)) hok
    subst horder
    refine ⟨request, now, _, _, List.mem_append_right _ (by simp [RefBook.call]; rfl), rfl,
      hstatus, ?_⟩
    rw [hid]
    rfl
  | cancel | amend | reset => cases hc

/-- The orders of every book were submitted on its symbol. -/
def RestingSubmitted (e : MatchingEngine k) (tape : List EngineEvent) : Prop :=
  ∀ s b, e.books s = some b → ∀ o ∈ b.reference.all, Submitted tape s o.leg

/-- **Step**: a call keeps the resting orders attributed. -/
theorem RestingSubmitted.step (hrest : RestingSubmitted e tape) (hv : e.Valid pf)
    (h : e.Effect pf a reply e') : RestingSubmitted e' (tape ++ [(a, reply)]) := by
  intro s b₁ hb₁ o ho
  cases h.bookStep hv s with
  | untouched hbooks _ =>
    rw [hbooks] at hb₁
    exact (hrest s b₁ hb₁ o ho).mono _
  | created b' hbook' hempty _ =>
    obtain rfl : b' = b₁ := Option.some.inj (hbook'.symm.trans hb₁)
    rw [hempty] at ho
    cases ho
  | called b b' c rm n hbook hbook' hforward hreply heffect =>
    obtain rfl : b' = b₁ := Option.some.inj (hbook'.symm.trans hb₁)
    have hvalid := (hv s b hbook).1
    cases heffect.origin hvalid.sound hvalid.uniqueIds ho with
    | rested m hm hleg _ =>
      rw [hleg]
      exact (hrest s b hbook m hm).mono _
    | added order hc hok hleg _ =>
      rw [hleg, hreply]
      exact hforward.submitted hc hok
    | amended id quantity price m _ hrepl hleg _ =>
      rw [hleg]
      exact (hrest s b hbook m (RefBook.find_some hrepl.found).2.1).mono _

/-- **Step**: the trades of a call are positive and both their legs were
    submitted on their symbol. -/
theorem RestingSubmitted.trade (hrest : RestingSubmitted e tape) (hv : e.Valid pf)
    (h : e.Effect pf a reply e') {t : Trade} (ht : t ∈ reply.trades) :
    0 < t.quantity ∧ Submitted (tape ++ [(a, reply)]) t.symbol t.takerLeg ∧
      Submitted (tape ++ [(a, reply)]) t.symbol t.makerLeg := by
  cases h with
  | idle | limited | refused | registered => cases ht
  | @booked a symbol c rm n b b' hbook hforward _ =>
    obtain ⟨hvalid, hsym⟩ := hv symbol b hbook
    have hby := (RefBook.call_effect pf hvalid.sound c.1 c.2).tradedBy hvalid.sound ht
    rw [hby.symbol_eq, show b.reference.symbol = symbol from hsym]
    obtain ⟨m, hm, hmaker⟩ := hby.maker
    refine ⟨hby.quantity_pos, ?_, hmaker ▸ (hrest symbol b hbook m hm).mono _⟩
    rcases hby.taker with ⟨order, hc, hok, htaker⟩ | ⟨o, ho, htaker⟩
    · rw [htaker]
      exact hforward.submitted hc hok
    · rw [htaker]
      exact (hrest symbol b hbook o ho).mono _

end attribution

/-! ## Section 4: Whole runs -/

/-- Summed over all participants, a side of the tape is the whole tape. -/
theorem sum_traded {s : Nat} {side : Side} {ts : List Trade}
    (h : ∀ t ∈ ts, t.participantOn side < 2 ^ 32) :
    ∑ p ∈ Finset.range (2 ^ 32), traded s p side ts =
      ((ts.filter fun t => t.symbol = s).map Trade.quantity).sum := by
  induction ts with
  | nil => simp
  | cons t ts ih =>
    have hrest := ih fun u hu => h u (by simp [hu])
    have ht : t.participantOn side ∈ Finset.range (2 ^ 32) := Finset.mem_range.mpr (h t (by simp))
    simp only [traded_cons, Finset.sum_add_distrib, hrest]
    by_cases hs : t.symbol = s
    -- the one participant on that side of the trade counts it
    · simp only [hs, true_and, Finset.sum_ite_eq, ht, if_true, decide_true,
        List.filter_cons_of_pos, List.map_cons, List.sum_cons]
    · simp [hs]

/-- What a run keeps: the engine is valid, resting orders and trades are
    attributed, and every position is what the tape nets. -/
structure OnTheTape (pf : Platform) {k : Approach} (tape : List EngineEvent)
    (e : MatchingEngine k) : Prop where
  valid : e.Valid pf
  resting : RestingSubmitted e tape
  trades : ∀ t ∈ engineTrades tape, 0 < t.quantity ∧ Submitted tape t.symbol t.takerLeg ∧
    Submitted tape t.symbol t.makerLeg
  position : ∀ s p, p < 2 ^ 32 →
    e.riskManager.position s p = pf.wrap (netTraded s p (engineTrades tape))

theorem OnTheTape.initial (pf : Platform) (k : Approach) :
    OnTheTape pf [] ({} : MatchingEngine k) where
  valid := MatchingEngine.valid_initial {}
  resting := fun s b hb => by cases hb
  trades := fun t ht => by cases ht
  position := fun s p _ => pf.wrap_zero.symm

/-- **Step**: every call returns and keeps the positions on the tape. -/
theorem OnTheTape.step {pf : Platform} {k : Approach} {tape : List EngineEvent}
    {e : MatchingEngine k} (h : OnTheTape pf tape e) (a : EngineCall × Clock) :
    ∃ reply e', e.call pf a = some (reply, e') ∧ OnTheTape pf (tape ++ [(a, reply)]) e' := by
  obtain ⟨reply, e', hrun, heffect, hvalid⟩ := h.valid.call_spec a
  have hnew := fun t (ht : t ∈ reply.trades) => h.resting.trade h.valid heffect ht
  have htrades : engineTrades (tape ++ [(a, reply)]) = engineTrades tape ++ reply.trades := by
    simp [engineTrades]
  refine ⟨reply, e', hrun, hvalid, h.resting.step h.valid heffect, ?_, ?_⟩
  · intro t ht
    rw [htrades] at ht
    rcases List.mem_append.mp ht with ht | ht
    · obtain ⟨hq, htaker, hmaker⟩ := h.trades t ht
      exact ⟨hq, htaker.mono _, hmaker.mono _⟩
    · exact hnew t ht
  · intro s p hp
    rw [htrades, netTraded_append]
    refine heffect.position hp ?_ (h.position s p hp)
    intro t ht
    obtain ⟨-, htaker, hmaker⟩ := hnew t ht
    exact ⟨htaker.participant_lt, hmaker.participant_lt⟩

/-- **Positions are the tape**: quantities read as exact integers, after any
    run of an engine that starts with no risk state, every position is what
    the participant bought on the tape less what it sold, the positions of
    each symbol sum to zero, and both legs of every trade are orders that
    their participants submitted on its symbol. -/
theorem positions_are_the_tape (pf : Platform) (hexact : ∀ x, pf.wrap x = x) (k : Approach)
    (calls : List (EngineCall × Clock)) :
    ∃ replies e, Runs.exec (MatchingEngine.call pf) ({} : MatchingEngine k) calls =
        some (replies, e) ∧
      (∀ s p : UInt32, e.riskManager.position s.toNat p.toNat =
        traded s.toNat p.toNat .buy (engineTrades (calls.zip replies)) -
          traded s.toNat p.toNat .sell (engineTrades (calls.zip replies))) ∧
      (∀ s : UInt32, ∑ p ∈ Finset.range (2 ^ 32), e.riskManager.position s.toNat p = 0) ∧
      ∀ t ∈ engineTrades (calls.zip replies), 0 < t.quantity ∧
        Submitted (calls.zip replies) t.symbol t.takerLeg ∧
        Submitted (calls.zip replies) t.symbol t.makerLeg := by
  obtain ⟨replies, e, hrun, hinv⟩ := Runs.exec_history
    (P := fun tape (e : MatchingEngine k) => OnTheTape pf tape e)
    (fun tape e a h (_ : True) => h.step a) calls [] {} (.initial pf k) (by simp)
  have hposition : ∀ s p, p < 2 ^ 32 → e.riskManager.position s p =
      netTraded s p (engineTrades (calls.zip replies)) := by
    intro s p hp
    rw [hinv.position s p hp, hexact]
    rfl
  refine ⟨replies, e, hrun, fun s p => hposition s.toNat p.toNat p.toNat_lt, ?_, hinv.trades⟩
  intro s
  -- buyers and sellers of a symbol trade the same total
  have hlt : ∀ side, ∀ t ∈ engineTrades (calls.zip replies), t.participantOn side < 2 ^ 32 := by
    intro side t ht
    obtain ⟨-, htaker, hmaker⟩ := hinv.trades t ht
    unfold Trade.participantOn
    split
    · exact htaker.participant_lt
    · exact hmaker.participant_lt
  rw [Finset.sum_congr rfl fun p hp => hposition s.toNat p (Finset.mem_range.mp hp)]
  unfold netTraded
  rw [Finset.sum_sub_distrib, sum_traded (hlt .buy), sum_traded (hlt .sell), Int.sub_self]

/-- A bid that an amend makes cross buys three lots of a resting ask. -/
theorem positions_are_the_tape_amended :
    ∃ (calls : List (EngineCall × Clock)) (replies : List Reply) (e : MatchingEngine .map),
      Runs.exec (MatchingEngine.call .exact) ({} : MatchingEngine .map) calls = some (replies, e) ∧
      e.riskManager.position 1 7 = -3 ∧
      traded 1 7 .buy (engineTrades (calls.zip replies)) -
        traded 1 7 .sell (engineTrades (calls.zip replies)) = -3 ∧
      ∑ p ∈ Finset.range (2 ^ 32), e.riskManager.position 1 p = 0 := by
  let calls : List (EngineCall × Clock) :=
    [(.addSymbol 1 90 110 4 .none, fun _ => 0),
     (.submit ⟨0, 1, 7, .sell, .limit, 100, 5, .gtc⟩, fun _ => 0),
     (.submit ⟨0, 1, 8, .buy, .limit, 95, 3, .gtc⟩, fun _ => 0),
     (.amend 1 2 3 (some 100), fun _ => 0)]
  obtain ⟨replies, e, hrun, hposition, hsum, -⟩ :=
    positions_are_the_tape .exact (fun _ => rfl) .map calls
  have hseven : e.riskManager.position 1 7 = -3 := by
    refine Runs.exec_any (P := fun _ e => e.riskManager.position 1 7 = -3) hrun ?_
    decide +kernel
  exact ⟨calls, replies, e, hrun, hseven, (hposition 1 7).symm.trans hseven, hsum 1⟩

end LightningLob
