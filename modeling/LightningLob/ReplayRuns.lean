import LightningLob.CsvLoading
import LightningLob.EngineEquivalence

/-! # Replays

    `OrderReplay::replay` feeds the requests of a file to an engine one at a
    time and tallies the reports.  What a file holds has no participants, so
    all its orders share the bucket of the unattributed ones: both legs of
    every trade are credited there, and the position stays at zero.  A replay
    through an engine without configured limits therefore does not depend on
    the clock at all, nor on the kind of book. -/

namespace LightningLob

/-! ## Section 1: `replay` -/

/-- `ReplayStats`, but for the time elapsed. -/
structure ReplayStats where
  total : Nat := 0
  accepted : Nat := 0
  rejected : Nat := 0
  filled : Nat := 0
  partiallyFilled : Nat := 0
  deriving DecidableEq, Repr

/-- What a round of the loop counts. -/
def ReplayStats.tally (stats : ReplayStats) (status : OrderStatus) : ReplayStats :=
  if status = .rejected then
    { stats with rejected := stats.rejected + 1 }
  else
    let stats := { stats with accepted := stats.accepted + 1 }
    if status = .filled then
      { stats with filled := stats.filled + 1 }
    else if status = .partiallyFilled then
      { stats with partiallyFilled := stats.partiallyFilled + 1 }
    else
      stats

/-- The reply to a submitted order. -/
def ReplayStats.count (stats : ReplayStats) (reply : Reply) : ReplayStats :=
  match reply.answer with
  | .report report => stats.tally report.status
  | .flag _ | .done => stats

namespace MatchingEngine

variable {k : Approach} (pf : Platform)

/-- The loop of `replay`, with the trades that the trade callback sees. -/
def replayLoop (e : MatchingEngine k) (stats : ReplayStats) (trades : List Trade) :
    List (OrderRequest × Clock) → Run (ReplayStats × List Trade × MatchingEngine k)
  | [] => pure (stats, trades, e)
  | (request, now) :: orders => do
      let (reply, e) ← e.submitOrder pf request now
      replayLoop e (stats.count reply) (trades ++ reply.trades) orders

/-- `replay`. -/
def replay (e : MatchingEngine k) (orders : List (OrderRequest × Clock)) :
    Run (ReplayStats × List Trade × MatchingEngine k) :=
  replayLoop pf e { total := orders.length } [] orders

/-- A submitted order as one step. -/
def submitted (e : MatchingEngine k) (a : OrderRequest × Clock) :
    Run (Reply × MatchingEngine k) :=
  e.submitOrder pf a.1 a.2

/-- A replay is a run of `submit_order`. -/
theorem replayLoop_of_exec {orders : List (OrderRequest × Clock)} :
    ∀ {e e' : MatchingEngine k} {replies : List Reply} (stats : ReplayStats) (trades : List Trade),
      Runs.exec (submitted pf) e orders = some (replies, e') →
      e.replayLoop pf stats trades orders =
        some (replies.foldl ReplayStats.count stats,
          trades ++ replies.flatMap Reply.trades, e') := by
  induction orders with
  | nil =>
    intro e e' replies stats trades hrun
    obtain ⟨rfl, rfl⟩ := Prod.mk.inj (Option.some.inj hrun)
    simp [replayLoop]
  | cons a orders ih =>
    intro e e' replies stats trades hrun
    obtain ⟨reply, e₁, rest, hstep, hrest, rfl⟩ := Runs.exec_cons_eq_some.mp hrun
    obtain ⟨request, now⟩ := a
    have hsubmit : e.submitOrder pf request now = some (reply, e₁) := hstep
    simp only [replayLoop, hsubmit, Option.bind_eq_bind, Option.bind_some]
    rw [ih _ _ hrest, List.foldl_cons, List.flatMap_cons, List.append_assoc]

end MatchingEngine

/-- What the counters of a tally add up to. -/
structure ReplayStats.Adds (stats : ReplayStats) (counted : Nat) : Prop where
  total : stats.accepted + stats.rejected = counted
  filled : stats.filled + stats.partiallyFilled ≤ stats.accepted

theorem ReplayStats.Adds.tally {stats : ReplayStats} {counted : Nat} (h : stats.Adds counted)
    (status : OrderStatus) : (stats.tally status).Adds (counted + 1) := by
  obtain ⟨htotal, hfilled⟩ := h
  unfold ReplayStats.tally
  constructor <;> cases status <;> simp <;> omega

/-! ## Section 2: The bucket of the unattributed -/

namespace SymbolParticipantState

/-- No limits are set, the position is zero, and at most `n` orders are in the
    window. -/
structure Idle (n : Nat) (st : SymbolParticipantState) : Prop where
  limits : st.limits = {}
  position : st.netPosition = 0
  window : st.ordersInWindow.toNat ≤ n

/-- A check then answers as that of a new entry does, at any time. -/
theorem Idle.check {n : Nat} {st : SymbolParticipantState} (h : st.Idle n) (hn : n < 2 ^ 32 - 1)
    (pf : Platform) (side : Side) (quantity : Int) (now : Timestamp) :
    (st.check pf side quantity now).1 =
        (({} : SymbolParticipantState).check pf side quantity 0).1 ∧
      (st.check pf side quantity now).2.Idle (n + 1) := by
  obtain ⟨hlimits, hposition, hwindow⟩ := h
  have hprospective : st.prospective pf side quantity =
      ({} : SymbolParticipantState).prospective pf side quantity := by
    unfold prospective
    rw [hposition]
  have hrolled : (st.rollWindow now).ordersInWindow.toNat ≤ n := by
    unfold rollWindow
    split
    · exact Nat.zero_le n
    · exact hwindow
  have hroom : ¬ (st.rollWindow now).ordersInWindow ≥ (4294967295 : UInt32) := by
    rw [ge_iff_le, UInt32.le_iff_toNat_le]
    show ¬ 4294967295 ≤ _
    omega
  have hkept : st.Idle (n + 1) := ⟨hlimits, hposition, Nat.le_succ_of_le hwindow⟩
  unfold SymbolParticipantState.check
  rw [hprospective, hlimits]
  split
  · exact ⟨rfl, hkept⟩
  split
  · exact ⟨rfl, hkept⟩
  · simp only [rollWindow_limits, hlimits, if_neg hroom]
    refine ⟨rfl, rfl, ?_, ?_⟩
    · rw [rollWindow_netPosition, hposition]
    · show ((st.rollWindow now).ordersInWindow + 1).toNat ≤ n + 1
      rw [UInt32.toNat_add]
      have hmod := Nat.mod_le ((st.rollWindow now).ordersInWindow.toNat + (1 : UInt32).toNat)
        (2 ^ 32)
      have hone : (1 : UInt32).toNat = 1 := rfl
      omega

end SymbolParticipantState

namespace RiskManager

/-- At most `n` orders were checked, all of them unattributed; `traded` tells
    which symbols had trades. -/
structure Pooled (n : Nat) (rm : RiskManager) (traded : SymbolId → Bool) : Prop where
  untouched : ∀ s, traded s = false → rm.state (packKey s 0) = none
  idle : ∀ s, traded s = true → ∃ st, rm.state (packKey s 0) = some st ∧ st.Idle n

/-- What the check of an unattributed order says. -/
def pooledVerdict (pf : Platform) (traded : Bool) (side : Side) (quantity : Int) : RejectReason :=
  if traded then (({} : SymbolParticipantState).check pf side quantity 0).1 else .none

variable {n : Nat} {pf : Platform} {rm : RiskManager} {traded : SymbolId → Bool}

/-- Writing the bucket of a symbol. -/
theorem Pooled.store (h : Pooled n rm traded) {m : Nat} (hle : n ≤ m) (s : SymbolId)
    {st : SymbolParticipantState} (hst : st.Idle m) :
    Pooled m (rm.store s 0 st) (Function.update traded s true) where
  untouched := by
    intro t ht
    have hne : t ≠ s := by
      rintro rfl
      rw [Function.update_self] at ht
      cases ht
    rw [Function.update_of_ne hne] at ht
    rw [store_state_of_ne (by decide) (by decide) fun hpair => hne hpair.1]
    exact h.untouched t ht
  idle := by
    intro t ht
    by_cases hne : t = s
    · subst hne
      exact ⟨st, store_state_self, hst⟩
    · rw [Function.update_of_ne hne] at ht
      obtain ⟨st', hstate, hlimits, hposition, hwindow⟩ := h.idle t ht
      refine ⟨st', ?_, hlimits, hposition, Nat.le_trans hwindow hle⟩
      rw [store_state_of_ne (by decide) (by decide) fun hpair => hne hpair.1]
      exact hstate

theorem Pooled.mono (h : Pooled n rm traded) {m : Nat} (hle : n ≤ m) : Pooled m rm traded where
  untouched := h.untouched
  idle := by
    intro s hs
    obtain ⟨st, hstate, hlimits, hposition, hwindow⟩ := h.idle s hs
    exact ⟨st, hstate, hlimits, hposition, Nat.le_trans hwindow hle⟩

theorem store_store (s p : Nat) (st st' : SymbolParticipantState) :
    (rm.store s p st).store s p st' = rm.store s p st' := by
  simp [RiskManager.store]

/-- The check of an unattributed order. -/
theorem Pooled.check (pf : Platform) (h : Pooled n rm traded) (hn : n < 2 ^ 32 - 1) (s : SymbolId)
    (side : Side) (quantity : Int) (now : Timestamp) :
    (rm.checkNewOrder pf s 0 side quantity now).1 = pooledVerdict pf (traded s) side quantity ∧
      Pooled (n + 1) (rm.checkNewOrder pf s 0 side quantity now).2 traded := by
  unfold checkNewOrder pooledVerdict
  cases htraded : traded s with
  | false =>
    rw [h.untouched s htraded]
    exact ⟨rfl, h.mono (Nat.le_succ n)⟩
  | true =>
    obtain ⟨st, hstate, hidle⟩ := h.idle s htraded
    obtain ⟨hreason, hidle'⟩ := hidle.check hn pf side quantity now
    simp only [hstate, if_true]
    refine ⟨hreason, ?_⟩
    have hstore := h.store (Nat.le_succ n) s hidle'
    rwa [← htraded, Function.update_eq_self] at hstore

/-- Both legs of a trade go to the bucket, which is back at zero after them. -/
theorem Pooled.onTrade (h : Pooled n rm traded) {t : Trade} (htaker : t.takerParticipantId = 0)
    (hmaker : t.makerParticipantId = 0) :
    Pooled n (rm.onTrade pf t) (Function.update traded t.symbol true) := by
  -- the entry of the symbol, before
  have hentry : (rm.entry t.symbol 0).Idle n := by
    cases htraded : traded t.symbol with
    | false =>
      unfold entry
      rw [h.untouched t.symbol htraded]
      exact ⟨rfl, rfl, Nat.zero_le n⟩
    | true =>
      obtain ⟨st, hstate, hidle⟩ := h.idle t.symbol htraded
      rwa [entry_of_state hstate]
  obtain ⟨hlimits, hposition, hwindow⟩ := hentry
  unfold RiskManager.onTrade
  rw [htaker, hmaker]
  have hback : pf.wrap (pf.wrap ((rm.entry t.symbol 0).netPosition +
      signedQuantity pf t.takerSide t.quantity) +
        signedQuantity pf t.takerSide.opposite t.quantity) = 0 := by
    rw [hposition, pf.wrap_add]
    cases t.takerSide with
    | buy =>
      show pf.wrap (0 + t.quantity + pf.wrap (-t.quantity)) = 0
      rw [Int.add_comm, pf.wrap_add, show -t.quantity + (0 + t.quantity) = 0 by omega, pf.wrap_zero]
    | sell =>
      show pf.wrap (0 + pf.wrap (-t.quantity) + t.quantity) = 0
      rw [Int.zero_add, pf.wrap_add, show -t.quantity + t.quantity = 0 by omega, pf.wrap_zero]
  unfold onFill
  simp only [store_entry_self, hback, store_store]
  exact h.store (Nat.le_refl n) t.symbol ⟨hlimits, rfl, hwindow⟩

/-- The trades of an unattributed order against unattributed makers. -/
theorem Pooled.onTrades {trades : List Trade} {s : SymbolId} : ∀ {rm : RiskManager}
    {traded : SymbolId → Bool}, Pooled n rm traded →
    (∀ t ∈ trades, t.symbol = s ∧ t.takerParticipantId = 0 ∧ t.makerParticipantId = 0) →
    Pooled n (trades.foldl (RiskManager.onTrade pf) rm)
      (Function.update traded s (traded s || !trades.isEmpty)) := by
  induction trades with
  | nil =>
    intro rm traded h _
    simpa using h
  | cons t trades ih =>
    intro rm traded h htrades
    obtain ⟨hsymbol, htaker, hmaker⟩ := htrades t (by simp)
    have hfirst : Pooled n (rm.onTrade pf t) (Function.update traded s true) := by
      rw [← hsymbol]
      exact h.onTrade htaker hmaker
    have hrest := ih hfirst fun u hu => htrades u (by simp [hu])
    simpa using hrest

end RiskManager

/-! ## Section 3: The replay of unattributed orders -/

/-- An engine without a clock and without limits. -/
structure ReplayEngine where
  books : SymbolId → Option RefBook := fun _ => none
  traded : SymbolId → Bool := fun _ => false
  nextOrderId : UInt64 := 1

namespace ReplayEngine

def submit (pf : Platform) (t : ReplayEngine) (request : OrderRequest) : Reply × ReplayEngine :=
  match t.books request.symbol.toNat with
  | none => (⟨.report (.reject request.clientOrderId.toNat .unknownSymbol), []⟩, t)
  | some r =>
      let (id, nextOrderId) :=
        if request.clientOrderId ≠ 0 then
          (request.clientOrderId, t.nextOrderId)
        else
          (t.nextOrderId, t.nextOrderId + 1)
      let t := { t with nextOrderId := nextOrderId }
      let reason := RiskManager.pooledVerdict pf (t.traded request.symbol.toNat) request.side
        request.quantity
      if reason ≠ .none then
        (⟨.report (.reject id.toNat reason), []⟩, t)
      else
        let (reply, r) := r.call pf (.add (request.toOrder id.toNat 0), fun _ => 0)
        (reply,
          { t with
            books := Function.update t.books request.symbol.toNat (some r)
            traded := Function.update t.traded request.symbol.toNat
              (t.traded request.symbol.toNat || !reply.trades.isEmpty) })

end ReplayEngine

section adding

variable {k : Approach} {pf : Platform} {b b' : k.Book} {r r' : RefBook} {order : Order}
  {now : Clock} {reply : Reply}

/-- The same legs rest with and without timestamps. -/
theorem Stands.exists_leg (h : Stands pf b r) (leg : Leg) :
    (∃ o ∈ r.all, o.leg = leg) ↔ ∃ o ∈ b.reference.all, o.leg = leg := by
  rw [← h.erased]
  constructor
  · rintro ⟨o, ho, rfl⟩
    obtain ⟨side, ho⟩ := RefBook.mem_all.mp ho
    obtain ⟨m, hm, rfl⟩ := List.mem_map.mp ho
    exact ⟨m, RefBook.mem_all.mpr ⟨side, hm⟩, rfl⟩
  · rintro ⟨m, hm, rfl⟩
    obtain ⟨side, hm⟩ := RefBook.mem_all.mp hm
    exact ⟨m.untimed, RefBook.mem_all.mpr ⟨side, List.mem_map_of_mem hm⟩, rfl⟩

theorem Stands.effect (h : Stands pf b r) {c : Call} (hz : c.NonZero)
    (hrun : b.call pf (c, now) = some (reply, b')) :
    b.reference.Effect c reply b'.reference := by
  obtain ⟨-, hreply, href⟩ := h.valid.call_eq (fun _ => hz) hrun
  rw [hreply, href]
  exact RefBook.call_effect pf h.valid.sound c now

/-- Who rests after an order is added. -/
theorem Stands.legs_of_add (h : Stands pf b r) (h' : Stands pf b' r')
    (hz : (Call.add order).NonZero)
    (hrun : b.call pf (.add order, now) = some (reply, b')) {o : Order} (ho : o ∈ r'.all) :
    (∃ m ∈ r.all, m.leg = o.leg) ∨ o.leg = order.leg := by
  obtain ⟨o', ho', hleg⟩ := (h'.exists_leg o.leg).mp ⟨o, ho, rfl⟩
  cases (h.effect hz hrun).origin h.valid.sound h.valid.uniqueIds ho' with
  | rested m hm hsame hle => exact .inl ((h.exists_leg o.leg).mpr ⟨m, hm, hsame.symm.trans hleg⟩)
  | added order' hc hok hsame hle =>
    cases hc
    exact .inr (hleg.symm.trans hsame)
  | amended id quantity price m hc => cases hc

/-- Between whom it trades. -/
theorem Stands.trades_of_add (h : Stands pf b r) (hz : (Call.add order).NonZero)
    (hrun : b.call pf (.add order, now) = some (reply, b')) {t : Trade} (ht : t ∈ reply.trades) :
    t.symbol = r.symbol ∧ (∃ m ∈ r.all, t.makerLeg = m.leg) ∧
      (t.takerLeg = order.leg ∨ ∃ m ∈ r.all, t.takerLeg = m.leg) := by
  obtain ⟨hsymbol, -, ⟨m, hm, hmaker⟩, htaker⟩ := (h.effect hz hrun).tradedBy h.valid.sound ht
  obtain ⟨m', hm', hleg⟩ := (h.exists_leg m.leg).mpr ⟨m, hm, rfl⟩
  refine ⟨?_, ⟨m', hm', hmaker.trans hleg.symm⟩, ?_⟩
  · rw [hsymbol, ← h.erased]
    rfl
  · rcases htaker with ⟨order', hc, -, htaker⟩ | ⟨o, ho, htaker⟩
    · cases hc
      exact .inl htaker
    · obtain ⟨o', ho', hleg⟩ := (h.exists_leg o.leg).mpr ⟨o, ho, rfl⟩
      exact .inr ⟨o', ho', htaker.trans hleg.symm⟩

end adding

/-- The book of a symbol stands for a reference book with unattributed orders
    only, under the given ids. -/
structure Shows {k : Approach} (pf : Platform) (minPrice maxPrice : UInt32 → Int)
    (ids : OrderId → Prop) (s : SymbolId) (b : k.Book) (r : RefBook) : Prop
    extends Opens pf minPrice maxPrice s b r where
  symbol : r.symbol = s
  unattributed : ∀ o ∈ r.all, o.participantId = 0
  named : ∀ o ∈ r.all, ids o.id

/-- An engine stands for one without a clock, after at most `n` orders under
    the given ids. -/
structure Replays {k : Approach} (pf : Platform) (minPrice maxPrice : UInt32 → Int) (n : Nat)
    (ids : OrderId → Prop) (e : MatchingEngine k) (t : ReplayEngine) : Prop where
  books : ∀ s, Option.Rel (Shows pf minPrice maxPrice ids s) (e.books s) (t.books s)
  pooled : e.riskManager.Pooled n t.traded
  counter : e.nextOrderId = t.nextOrderId

/-- The request is unattributed and in the band of its symbol. -/
structure OrderRequest.Replayable (minPrice maxPrice : UInt32 → Int) (request : OrderRequest) :
    Prop where
  unattributed : request.participantId = 0
  inBand : (EngineCall.submit request).InBands minPrice maxPrice

section replaying

variable {k : Approach} {pf : Platform} {minPrice maxPrice : UInt32 → Int} {n : Nat}
  {e : MatchingEngine k} {t : ReplayEngine} {request : OrderRequest} {b : k.Book} {r : RefBook}
  {ids ids' : OrderId → Prop}

theorem Replays.mono (h : Replays pf minPrice maxPrice n ids e t) (hids : ∀ i, ids i → ids' i)
    (s : SymbolId) : Option.Rel (Shows pf minPrice maxPrice ids' s) (e.books s) (t.books s) := by
  obtain ⟨hb, hr⟩ | ⟨b, r, hb, hr, hshows⟩ := rel_cases (h.books s)
  · rw [hb, hr]
    exact .none
  · rw [hb, hr]
    exact .some { hshows with named := fun o ho => hids o.id (hshows.named o ho) }

/-- A book with unattributed orders gets another. -/
theorem Shows.add (h : Shows pf minPrice maxPrice ids request.symbol.toNat b r)
    (hrequest : request.Replayable minPrice maxPrice) {id : UInt64} (hid : id ≠ 0)
    (hids : ∀ i, ids i → ids' i) (hnew : ids' id.toNat) (receiptTime : Timestamp) (now : Clock) :
    ∃ reply b', b.call pf (.add (request.toOrder id.toNat receiptTime), now) = some (reply, b') ∧
      reply.untimed = (r.call pf (.add (request.toOrder id.toNat 0), fun _ => 0)).1 ∧
      Shows pf minPrice maxPrice ids' request.symbol.toNat b'
        (r.call pf (.add (request.toOrder id.toNat 0), fun _ => 0)).2 ∧
      ∀ u ∈ reply.trades, u.symbol = request.symbol.toNat ∧ u.takerParticipantId = 0 ∧
        u.makerParticipantId = 0 := by
  have hz : (Call.add (request.toOrder id.toNat receiptTime)).NonZero := fun heq =>
    hid (UInt64.toNat_inj.mp heq)
  have hband := h.band request.symbol rfl
  obtain ⟨reply, b', hrun, hreply, hstands', hrange⟩ := h.stands.call hz
    (fun htype => by rw [hband]; exact decide_eq_true (hrequest.inBand htype)) now
  have huntimed : (Call.add (request.toOrder id.toNat receiptTime)).untimed =
      .add (request.toOrder id.toNat 0) := rfl
  rw [huntimed] at hreply hstands' hrange
  have hparticipant : (request.toOrder id.toNat receiptTime).participantId = 0 := by
    show request.participantId.toNat = 0
    rw [hrequest.unattributed]
    rfl
  have hsymbol : (r.call pf (.add (request.toOrder id.toNat 0), fun _ => 0)).2.symbol =
      r.symbol := by
    rw [← hstands'.erased, ← h.stands.erased]
    exact (h.stands.effect hz hrun).setup.symbol_eq
  refine ⟨reply, b', hrun, hreply, ⟨⟨hstands', ?_⟩, hsymbol.trans h.symbol, ?_, ?_⟩, ?_⟩
  · exact fun symbol heq => hrange.trans (h.band symbol heq)
  · intro o ho
    rcases h.stands.legs_of_add hstands' hz hrun ho with ⟨m, hm, hleg⟩ | hleg
    · rw [← Order.participant_of_leg hleg]
      exact h.unattributed m hm
    · rw [Order.participant_of_leg hleg, hparticipant]
  · intro o ho
    rcases h.stands.legs_of_add hstands' hz hrun ho with ⟨m, hm, hleg⟩ | hleg
    · have hid : m.id = o.id := congrArg Leg.orderId hleg
      rw [← hid]
      exact hids m.id (h.named m hm)
    · have hid : o.id = id.toNat := congrArg Leg.orderId hleg
      rw [hid]
      exact hnew
  · intro u hu
    obtain ⟨hsame, ⟨m, hm, hmaker⟩, htaker⟩ := h.stands.trades_of_add hz hrun hu
    refine ⟨hsame.trans h.symbol, ?_,
      (congrArg Leg.participantId hmaker).trans (h.unattributed m hm)⟩
    rcases htaker with htaker | ⟨o, ho, htaker⟩
    · exact (congrArg Leg.participantId htaker).trans hparticipant
    · exact (congrArg Leg.participantId htaker).trans (h.unattributed o ho)

/-- **Step**: an order is submitted. -/
theorem Replays.submitOrder (h : Replays pf minPrice maxPrice n ids e t)
    (hrequest : request.Replayable minPrice maxPrice) (hn : n < 2 ^ 32 - 1)
    (hid : (e.assignId request).1 ≠ 0) (hids : ∀ i, ids i → ids' i)
    (hnew : ids' (e.assignId request).1.toNat) (now : Clock) :
    ∃ reply e', e.submitOrder pf request now = some (reply, e') ∧
      reply.untimed = (t.submit pf request).1 ∧
      Replays pf minPrice maxPrice (n + 1) ids' e' (t.submit pf request).2 := by
  have hassign : e.assignId request = if request.clientOrderId ≠ 0 then
      (request.clientOrderId, t.nextOrderId) else (t.nextOrderId, t.nextOrderId + 1) := by
    rw [MatchingEngine.assignId, h.counter]
  unfold MatchingEngine.submitOrder ReplayEngine.submit
  rw [← hassign, hrequest.unattributed]
  generalize e.assignId request = assigned at hid hnew
  obtain ⟨id, next⟩ := assigned
  obtain ⟨hreason, hpooled⟩ := h.pooled.check pf hn request.symbol.toNat request.side
    request.quantity (now 0)
  obtain ⟨hb, hr⟩ | ⟨b, r, hb, hr, hshows⟩ := rel_cases (h.books request.symbol.toNat)
  · rw [hb, hr]
    exact ⟨_, e, rfl, rfl, ⟨h.mono hids, h.pooled.mono (Nat.le_succ n), h.counter⟩⟩
  · rw [hb, hr]
    simp only [show (0 : UInt32).toNat = 0 from rfl, hreason]
    split
    · exact ⟨_, _, rfl, rfl, ⟨h.mono hids, hpooled, rfl⟩⟩
    · obtain ⟨reply, b', hrun, hreply, hshows', htrades⟩ :=
        hshows.add hrequest hid hids hnew (now 0) fun i => now (i + 1)
      refine ⟨reply, _, by simp only [MatchingEngine.onBook, hrun]; rfl, hreply, ?_⟩
      have hempty : (r.call pf (.add (request.toOrder id.toNat 0), fun _ => 0)).1.trades.isEmpty =
          reply.trades.isEmpty := by
        rw [← hreply]
        exact List.isEmpty_map
      simp only [hempty]
      exact ⟨rel_update (h.mono hids) hshows', hpooled.onTrades htrades, rfl⟩

/-- The id counter moves by one at most. -/
theorem ReplayEngine.submit_counter (pf : Platform) (t : ReplayEngine) (request : OrderRequest) :
    (t.submit pf request).2.nextOrderId = t.nextOrderId ∨
      (t.submit pf request).2.nextOrderId = t.nextOrderId + 1 := by
  unfold submit
  split
  · exact .inl rfl
  · by_cases hid : request.clientOrderId ≠ 0
    · left
      simp only [if_pos hid]
      split <;> rfl
    · right
      simp only [if_neg hid]
      split <;> rfl

/-- A replay under way: `n` orders were submitted, and those to come do not
    exhaust any of the 32-bit order counters. -/
structure Underway (pf : Platform) (minPrice maxPrice : UInt32 → Int) (n : Nat)
    (as : List (OrderRequest × Clock)) (e : MatchingEngine k) (t : ReplayEngine) : Prop where
  replays : Replays pf minPrice maxPrice n (fun _ => True) e t
  orders : ∀ a ∈ as, a.1.Replayable minPrice maxPrice
  positive : 0 < t.nextOrderId.toNat
  counter : t.nextOrderId.toNat ≤ n + 1
  room : n + as.length < 2 ^ 32

theorem Underway.step {a : OrderRequest × Clock} {as : List (OrderRequest × Clock)}
    (h : Underway pf minPrice maxPrice n (a :: as) e t) :
    ∃ reply e', e.submitted pf a = some (reply, e') ∧
      reply.untimed = (t.submit pf a.1).1 ∧
      Underway pf minPrice maxPrice (n + 1) as e' (t.submit pf a.1).2 := by
  have hroom := h.room
  have hpositive := h.positive
  have hcounter := h.counter
  rw [List.length_cons] at hroom
  have hid : (e.assignId a.1).1 ≠ 0 := by
    rw [MatchingEngine.assignId, h.replays.counter]
    split
    · assumption
    · intro hz
      rw [show t.nextOrderId = 0 from hz] at hpositive
      exact Nat.lt_irrefl 0 hpositive
  have hnext : (t.nextOrderId + 1).toNat = t.nextOrderId.toNat + 1 := by
    rw [UInt64.toNat_add]
    exact Nat.mod_eq_of_lt (by show t.nextOrderId.toNat + 1 < 2 ^ 64; omega)
  obtain ⟨reply, e', hrun, hreply, hreplays⟩ := h.replays.submitOrder (h.orders a (by simp))
    (by omega) hid (fun _ _ => trivial) trivial a.2
  refine ⟨reply, e', hrun, hreply, hreplays, fun b hb => h.orders b (by simp [hb]), ?_, ?_, ?_⟩
  · rcases t.submit_counter pf a.1 with heq | heq <;> rw [heq] <;> omega
  · rcases t.submit_counter pf a.1 with heq | heq <;> rw [heq] <;> omega
  · omega

end replaying

/-! ## Section 4: Determinism -/

/-- The arguments of an `add_symbol` call. -/
structure Listing where
  symbol : UInt32
  minPrice : Int
  maxPrice : Int
  orderCapacityHint : Nat := 4096
  stpPolicy : SelfTradePrevention := .none
  deriving DecidableEq, Repr

def Listing.call (l : Listing) : EngineCall :=
  .addSymbol l.symbol l.minPrice l.maxPrice l.orderCapacityHint l.stpPolicy

/-- An engine as it is set up for a replay: symbols, and no limits. -/
def MatchingEngine.listing (pf : Platform) (k : Approach) (listings : List Listing) :
    MatchingEngine k :=
  listings.foldl (fun e l => e.addSymbol pf l.symbol.toNat l.minPrice l.maxPrice
    l.orderCapacityHint l.stpPolicy) {}

def ReferenceEngine.listing (listings : List Listing) : ReferenceEngine :=
  listings.foldl (fun t l => t.addSymbol l.symbol.toNat l.minPrice l.maxPrice l.stpPolicy) {}

/-- Nothing but `add_symbol` was called. -/
structure Fresh {k : Approach} (pf : Platform) (minPrice maxPrice : UInt32 → Int)
    (e : MatchingEngine k) (t : ReferenceEngine) : Prop where
  simulates : Simulates pf minPrice maxPrice e t
  empty : ∀ s r, t.books s = some r → r.symbol = s ∧ r.all = []
  untouched : e.riskManager = {}
  counter : t.nextOrderId = 1

section listings

variable {k : Approach} {pf : Platform} {minPrice maxPrice : UInt32 → Int} {e : MatchingEngine k}
  {t : ReferenceEngine} {l : Listing} {listings : List Listing}

theorem Fresh.addSymbol (h : Fresh pf minPrice maxPrice e t)
    (hin : l.call.InBands minPrice maxPrice) (hregister : l.call.Registers pf) :
    Fresh pf minPrice maxPrice
      (e.addSymbol pf l.symbol.toNat l.minPrice l.maxPrice l.orderCapacityHint l.stpPolicy)
      (t.addSymbol l.symbol.toNat l.minPrice l.maxPrice l.stpPolicy) where
  simulates := h.simulates.addSymbol hin hregister
  empty := by
    intro s r hr
    unfold ReferenceEngine.addSymbol at hr
    split at hr
    · exact h.empty s r hr
    · by_cases hs : s = l.symbol.toNat
      · subst hs
        simp only [Function.update_self] at hr
        obtain rfl := Option.some.inj hr
        exact ⟨rfl, rfl⟩
      · simp only [Function.update_of_ne hs] at hr
        exact h.empty s r hr
  untouched := by
    rw [← h.untouched]
    unfold MatchingEngine.addSymbol
    split
    · rfl
    · split <;> rfl
  counter := by
    rw [← h.counter]
    unfold ReferenceEngine.addSymbol
    split <;> rfl

theorem Fresh.listing (pf : Platform) (k : Approach)
    (hlistings : ∀ l ∈ listings, l.call.InBands minPrice maxPrice ∧ l.call.Registers pf) :
    Fresh pf minPrice maxPrice (MatchingEngine.listing pf k listings)
      (ReferenceEngine.listing listings) := by
  have hfold : ∀ (e : MatchingEngine k) (t : ReferenceEngine), Fresh pf minPrice maxPrice e t →
      Fresh pf minPrice maxPrice
        (listings.foldl (fun e l => e.addSymbol pf l.symbol.toNat l.minPrice l.maxPrice
          l.orderCapacityHint l.stpPolicy) e)
        (listings.foldl (fun t l =>
          t.addSymbol l.symbol.toNat l.minPrice l.maxPrice l.stpPolicy) t) := by
    induction listings with
    | nil => exact fun e t h => h
    | cons l listings ih =>
      intro e t h
      obtain ⟨hin, hregister⟩ := hlistings l (by simp)
      exact ih (fun m hm => hlistings m (by simp [hm])) _ _ (h.addSymbol hin hregister)
  exact hfold {} {} ⟨⟨fun _ => .none, rfl, rfl⟩, fun _ _ hr => (by cases hr), rfl, rfl⟩

/-- The clockless engine a replay starts with. -/
def ReplayEngine.listing (listings : List Listing) : ReplayEngine :=
  { books := (ReferenceEngine.listing listings).books }

theorem Fresh.replays (h : Fresh pf minPrice maxPrice e (ReferenceEngine.listing listings))
    (ids : OrderId → Prop) :
    Replays pf minPrice maxPrice 0 ids e (ReplayEngine.listing listings) where
  books := by
    intro s
    show Option.Rel _ (e.books s) ((ReferenceEngine.listing listings).books s)
    obtain ⟨hb, hr⟩ | ⟨b, r, hb, hr, hopens⟩ := rel_cases (h.simulates.books s)
    · rw [hb, hr]
      exact .none
    · rw [hb, hr]
      obtain ⟨hsymbol, hempty⟩ := h.empty s r hr
      exact .some ⟨hopens, hsymbol, by simp [hempty], by simp [hempty]⟩
  pooled := by
    rw [h.untouched]
    exact ⟨fun _ _ => rfl, fun _ hs => (by cases hs)⟩
  counter := h.simulates.counter.trans h.counter

end listings

/-- The counters do not look at timestamps. -/
theorem foldl_count_untimed (replies : List Reply) (stats : ReplayStats) :
    (replies.map Reply.untimed).foldl ReplayStats.count stats =
      replies.foldl ReplayStats.count stats := by
  rw [List.foldl_map]
  rfl

/-- A submitted order is answered with a report. -/
theorem ReplayEngine.submit_report (pf : Platform) (t : ReplayEngine) (request : OrderRequest) :
    ∃ report, (t.submit pf request).1.answer = .report report := by
  unfold submit
  split
  · exact ⟨_, rfl⟩
  · simp only
    split
    · exact ⟨_, rfl⟩
    · exact ⟨_, rfl⟩

/-- **Tallies**: every order is counted as accepted or rejected, and at most one
    of the accepted ones more precisely. -/
theorem ReplayStats.Adds.run (pf : Platform) (orders : List OrderRequest) :
    ∀ {t : ReplayEngine} {stats : ReplayStats} {counted : Nat}, stats.Adds counted →
      ((Runs.execSpec (ReplayEngine.submit pf) t orders).1.foldl ReplayStats.count stats).Adds
          (counted + orders.length) ∧
        ((Runs.execSpec (ReplayEngine.submit pf) t orders).1.foldl ReplayStats.count stats).total =
          stats.total := by
  induction orders with
  | nil => exact fun h => ⟨h, rfl⟩
  | cons request orders ih =>
    intro t stats counted h
    obtain ⟨report, hreport⟩ := t.submit_report pf request
    have hcount : stats.count (t.submit pf request).1 = stats.tally report.status := by
      unfold ReplayStats.count
      rw [hreport]
    obtain ⟨hadds, htotal⟩ := ih (t := (t.submit pf request).2) (h.tally report.status)
    simp only [Runs.execSpec, List.foldl_cons, hcount, List.length_cons]
    refine ⟨by rwa [Nat.add_right_comm] at hadds, htotal.trans ?_⟩
    unfold ReplayStats.tally
    split
    · rfl
    · simp only
      split
      · rfl
      · split <;> rfl

/-- Orders submitted to an engine as it is set up for a replay: over every kind
    of book and at every clock the clockless engine tells what happens. -/
theorem exec_submitted_listing (pf : Platform) (k : Approach) {minPrice maxPrice : UInt32 → Int}
    {listings : List Listing}
    (hlistings : ∀ l ∈ listings, l.call.InBands minPrice maxPrice ∧ l.call.Registers pf)
    (orders : List (OrderRequest × Clock))
    (horders : ∀ a ∈ orders, a.1.Replayable minPrice maxPrice) (hcount : orders.length < 2 ^ 32) :
    ∃ replies e', Runs.exec (MatchingEngine.submitted pf) (MatchingEngine.listing pf k listings)
        orders = some (replies, e') ∧
      replies.map Reply.untimed = (Runs.execSpec (ReplayEngine.submit pf)
        (ReplayEngine.listing listings) (orders.map Prod.fst)).1 ∧
      (e'.observe.upTo kMaxViews).books = fun s => ((Runs.execSpec (ReplayEngine.submit pf)
        (ReplayEngine.listing listings) (orders.map Prod.fst)).2.books s).map
          (RefBook.answers pf) := by
  have hstart : Underway pf minPrice maxPrice 0 orders (MatchingEngine.listing pf k listings)
      (ReplayEngine.listing listings) :=
    ⟨(Fresh.listing pf k hlistings).replays _, horders, Nat.zero_lt_one, Nat.le_refl 1, by omega⟩
  obtain ⟨replies, e', hrun, hreplies, n, hend⟩ := Runs.exec_simulates_rest Prod.fst Reply.untimed
    (fun as (e : MatchingEngine k) t => ∃ n, Underway pf minPrice maxPrice n as e t)
    (fun a as e t h => by
      obtain ⟨n, h⟩ := h
      obtain ⟨reply, e', hsubmit, hreply, h'⟩ := h.step
      exact ⟨reply, e', hsubmit, hreply, n + 1, h'⟩)
    orders _ _ ⟨0, hstart⟩
  refine ⟨replies, e', hrun, hreplies, ?_⟩
  funext s
  show ((e'.books s).map OrderBook.observe).map (Observation.upTo kMaxViews) = _
  obtain ⟨hb, hr⟩ | ⟨b, r, hb, hr, hshows⟩ := rel_cases (hend.replays.books s)
  · rw [hb, hr]
    rfl
  · rw [hb, hr]
    exact congrArg some hshows.stands.observe_eq

/-- The same, with the requests and the clocks apart. -/
theorem exec_submitted_zip (pf : Platform) (k : Approach) {minPrice maxPrice : UInt32 → Int}
    {listings : List Listing}
    (hlistings : ∀ l ∈ listings, l.call.InBands minPrice maxPrice ∧ l.call.Registers pf)
    {orders : List OrderRequest}
    (horders : ∀ request ∈ orders, request.Replayable minPrice maxPrice)
    (hcount : orders.length < 2 ^ 32) {clocks : List Clock}
    (hlen : clocks.length = orders.length) :
    ∃ replies e', Runs.exec (MatchingEngine.submitted pf) (MatchingEngine.listing pf k listings)
        (orders.zip clocks) = some (replies, e') ∧
      replies.map Reply.untimed = (Runs.execSpec (ReplayEngine.submit pf)
        (ReplayEngine.listing listings) orders).1 ∧
      (e'.observe.upTo kMaxViews).books = fun s => ((Runs.execSpec (ReplayEngine.submit pf)
        (ReplayEngine.listing listings) orders).2.books s).map (RefBook.answers pf) := by
  have hfst : (orders.zip clocks).map Prod.fst = orders :=
    List.map_fst_zip (Nat.le_of_eq hlen.symm)
  have hcount' : (orders.zip clocks).length < 2 ^ 32 := by
    rw [List.length_zip]
    omega
  have hrun := exec_submitted_listing pf k hlistings (orders.zip clocks)
    (fun a ha => horders a.1 (hfst ▸ List.mem_map_of_mem ha)) hcount'
  rwa [hfst] at hrun

/-- **Determinism**: list the same symbols, set no limits, and replay the same
    unattributed orders, with prices in the bands of their symbols and fewer
    than `2 ^ 32` of them.  Over every kind of book and at every clock the replay
    gives the same statistics, the same trades (timestamps aside) and the same
    answers of the books, as long as depths are asked for no more levels than a
    vector of them can hold; and every order is counted once. -/
theorem replay_deterministic (pf : Platform) (minPrice maxPrice : UInt32 → Int)
    (listings : List Listing)
    (hlistings : ∀ l ∈ listings, l.call.InBands minPrice maxPrice ∧ l.call.Registers pf)
    (orders : List OrderRequest)
    (horders : ∀ request ∈ orders, request.Replayable minPrice maxPrice)
    (hcount : orders.length < 2 ^ 32) :
    ∃ (stats : ReplayStats) (trades : List Trade) (views : SymbolId → Option Observation),
      stats.total = orders.length ∧ stats.Adds orders.length ∧
      (∀ s view, views s = some view → view.Answered) ∧
      ∀ (k : Approach) (clocks : List Clock), clocks.length = orders.length →
        ∃ trades' e', (MatchingEngine.listing pf k listings).replay pf (orders.zip clocks) =
            some (stats, trades', e') ∧
          trades'.map Trade.untimed = trades ∧ (e'.observe.upTo kMaxViews).books = views := by
  let start := ReplayEngine.listing listings
  let spec := Runs.execSpec (ReplayEngine.submit pf) start orders
  have hzero : ReplayStats.Adds { total := orders.length } 0 := ⟨rfl, Nat.le_refl 0⟩
  obtain ⟨hadds, htotal⟩ := ReplayStats.Adds.run pf orders (t := start) hzero
  rw [Nat.zero_add] at hadds
  refine ⟨spec.1.foldl ReplayStats.count { total := orders.length },
    spec.1.flatMap Reply.trades, fun s => (spec.2.books s).map (RefBook.answers pf), htotal, hadds,
    ?_, fun k clocks hlen => ?_⟩
  · intro s view hview
    obtain ⟨r, -, rfl⟩ := Option.map_eq_some_iff.mp hview
    exact r.answered pf
  obtain ⟨replies, e', hrun, hreplies, hviews⟩ :=
    exec_submitted_zip pf k hlistings horders hcount hlen
  refine ⟨replies.flatMap Reply.trades, e', ?_, ?_, hviews⟩
  · unfold MatchingEngine.replay
    rw [MatchingEngine.replayLoop_of_exec pf _ _ hrun, ← foldl_count_untimed, hreplies,
      List.length_zip, hlen, Nat.min_self]
    rfl
  · show _ = spec.1.flatMap Reply.trades
    rw [← show replies.map Reply.untimed = spec.1 from hreplies, List.map_flatMap,
      List.flatMap_map]
    rfl

/-- Four orders, of which two trade, at any clock. -/
theorem replay_deterministic_two_fills :
    ∃ stats : ReplayStats, stats = ⟨4, 4, 0, 2, 0⟩ ∧
      ∀ (k : Approach) (clocks : List Clock), clocks.length = 4 →
        ∃ trades e', (MatchingEngine.listing .int64 k [⟨1, 40, 110, 4, .none⟩]).replay .int64
          (List.zip [⟨1, 1, 0, .buy, .limit, 100, 10, .gtc⟩,
            ⟨2, 1, 0, .sell, .limit, 105, 10, .gtc⟩, ⟨3, 1, 0, .buy, .limit, 105, 5, .gtc⟩,
            ⟨4, 1, 0, .sell, .limit, 50, 3, .ioc⟩] clocks) = some (stats, trades, e') := by
  have hsome : ∀ k : Approach, (k.create .int64 1 40 110 4 .none).isSome = true := by
    intro k
    cases k <;> decide +kernel
  obtain ⟨stats, trades, views, -, -, -, hall⟩ := replay_deterministic .int64 (fun _ => 40)
    (fun _ => 110) [⟨1, 40, 110, 4, .none⟩]
    (by simpa [Listing.call, EngineCall.InBands, EngineCall.Registers] using hsome)
    [⟨1, 1, 0, .buy, .limit, 100, 10, .gtc⟩, ⟨2, 1, 0, .sell, .limit, 105, 10, .gtc⟩,
      ⟨3, 1, 0, .buy, .limit, 105, 5, .gtc⟩, ⟨4, 1, 0, .sell, .limit, 50, 3, .ioc⟩]
    (by
      intro request hmem
      simp only [List.mem_cons, List.not_mem_nil, or_false] at hmem
      rcases hmem with rfl | rfl | rfl | rfl <;>
        exact ⟨rfl, fun _ => ⟨by decide, by decide⟩⟩)
    (by decide)
  -- one run tells the statistics of all
  obtain ⟨trades', e', hrun, -, -⟩ := hall .map (List.replicate 4 fun _ => 0) rfl
  have hstats := congrArg (Option.map Prod.fst) hrun
  refine ⟨stats, (Option.some.inj (hstats.symm.trans ?_)), fun k clocks hlen => ?_⟩
  · decide +kernel
  · obtain ⟨trades', e', hrun, -, -⟩ := hall k clocks hlen
    exact ⟨trades', e', hrun⟩

end LightningLob
