import LightningLob.EngineRuns
import LightningLob.Equivalence
import Mathlib.Data.Nat.Cast.Order.Ring

/-! # Three engines, one behaviour

    The engine takes its book as a template parameter.  Here it is seen from
    outside: what it answers, what it credits to positions and what its books
    show does not depend on the parameter, and of the clock only the receipt
    times of submitted orders count.  The specification the three engines share
    is an engine over reference books without timestamps. -/

namespace LightningLob

/-! ## Section 1: The engine over reference books -/

structure ReferenceEngine where
  books : SymbolId → Option RefBook := fun _ => none
  riskManager : RiskManager := {}
  nextOrderId : UInt64 := 1

/-- What counts of the clock readings of a call: the receipt time of an order. -/
def EngineCall.received : EngineCall × Clock → EngineCall × Timestamp
  | (.submit request, now) => (.submit request, now 0)
  | (c, _) => (c, 0)

namespace ReferenceEngine

variable (pf : Platform)

/-- One call on the book of a symbol, without a clock. -/
def onBook (t : ReferenceEngine) (symbol : SymbolId) (r : RefBook) (c : Call) :
    Reply × ReferenceEngine :=
  let (reply, r) := r.call pf (c.untimed, fun _ => 0)
  (reply,
    { t with
      books := Function.update t.books symbol (some r)
      riskManager := reply.trades.foldl (RiskManager.onTrade pf) t.riskManager })

/-- A call for the book of a symbol, with the answer if there is none. -/
def route (t : ReferenceEngine) (symbol : SymbolId) (missing : Answer) (c : Call) :
    Reply × ReferenceEngine :=
  match t.books symbol with
  | none => (⟨missing, []⟩, t)
  | some r => t.onBook pf symbol r c

def submitOrder (t : ReferenceEngine) (request : OrderRequest) (receiptTime : Timestamp) :
    Reply × ReferenceEngine :=
  match t.books request.symbol.toNat with
  | none => (⟨.report (.reject request.clientOrderId.toNat .unknownSymbol), []⟩, t)
  | some r =>
      let (id, nextOrderId) :=
        if request.clientOrderId ≠ 0 then
          (request.clientOrderId, t.nextOrderId)
        else
          (t.nextOrderId, t.nextOrderId + 1)
      let (reason, riskManager) := t.riskManager.checkNewOrder pf request.symbol.toNat
        request.participantId.toNat request.side request.quantity receiptTime
      let t := { t with riskManager := riskManager, nextOrderId := nextOrderId }
      if reason ≠ .none then
        (⟨.report (.reject id.toNat reason), []⟩, t)
      else
        t.onBook pf request.symbol.toNat r (.add (request.toOrder id.toNat receiptTime))

/-- Registering a symbol opens an empty book over its band. -/
def addSymbol (t : ReferenceEngine) (symbol : SymbolId) (minPrice maxPrice : Int)
    (stpPolicy : SelfTradePrevention) : ReferenceEngine :=
  match t.books symbol with
  | some _ => t
  | none =>
      let r : RefBook := ⟨symbol, stpPolicy, Approach.array.accepts minPrice maxPrice, fun _ => []⟩
      { t with books := Function.update t.books symbol (some r) }

def call (t : ReferenceEngine) : EngineCall × Timestamp → Reply × ReferenceEngine
  | (.addSymbol symbol minPrice maxPrice _ stpPolicy, _) =>
      (⟨.done, []⟩, t.addSymbol symbol.toNat minPrice maxPrice stpPolicy)
  | (.submit request, receiptTime) => t.submitOrder pf request receiptTime
  | (.cancel symbol id, _) => t.route pf symbol.toNat (.flag false) (.cancel id)
  | (.amend symbol id newQuantity newPrice, _) =>
      t.route pf symbol.toNat (.report (.reject id .unknownSymbol)) (.amend id newQuantity newPrice)
  | (.resetSymbol symbol, _) => t.route pf symbol.toNat .done .reset
  | (.setRiskLimits symbol participant limits, _) =>
      (⟨.done, []⟩,
        { t with riskManager := t.riskManager.setLimits symbol.toNat participant.toNat limits })

end ReferenceEngine

/-! ## Section 2: What is seen of an engine -/

/-- The answers of all queries on an engine and its books. -/
structure EngineObservation where
  books : SymbolId → Option Observation
  riskManager : RiskManager

def MatchingEngine.observe {k : Approach} (e : MatchingEngine k) : EngineObservation where
  books := fun s => (e.books s).map OrderBook.observe
  riskManager := e.riskManager

/-- The answers with depths of at most `m` levels asked for. -/
def EngineObservation.upTo (m : Nat) (o : EngineObservation) : EngineObservation :=
  { o with books := fun s => (o.books s).map (Observation.upTo m) }

/-- Every depth query on every book returns. -/
def EngineObservation.Answered (o : EngineObservation) : Prop :=
  ∀ s b, o.books s = some b → b.Answered

/-- The answers that do not depend on the kind of book: those with depths of no
    more levels than a vector of them can hold. -/
def RefBook.answers (pf : Platform) (r : RefBook) : Observation :=
  (r.observe pf fun _ => some ()).upTo kMaxViews

theorem RefBook.answered (pf : Platform) (r : RefBook) : (r.answers pf).Answered := by
  have hobserve : (r.observe pf fun _ => some ()).Answered := fun n => ⟨rfl, rfl⟩
  exact hobserve.upTo kMaxViews

def ReferenceEngine.answers (pf : Platform) (t : ReferenceEngine) : EngineObservation where
  books := fun s => (t.books s).map (RefBook.answers pf)
  riskManager := t.riskManager

theorem ReferenceEngine.answered (pf : Platform) (t : ReferenceEngine) :
    (t.answers pf).Answered := by
  intro s b hb
  obtain ⟨r, -, rfl⟩ := Option.map_eq_some_iff.mp hb
  exact r.answered pf

/-- A call, and all the queries after it. -/
def MatchingEngine.observedCall {k : Approach} (pf : Platform) (e : MatchingEngine k)
    (a : EngineCall × Clock) : Run ((Reply × EngineObservation) × MatchingEngine k) := do
  let (reply, e) ← e.call pf a
  pure ((reply, e.observe), e)

def ReferenceEngine.observedCall (pf : Platform) (t : ReferenceEngine)
    (a : EngineCall × Timestamp) : (Reply × EngineObservation) × ReferenceEngine :=
  let (reply, t) := t.call pf a
  ((reply, t.answers pf), t)

/-- The prices of a call are in the band of its symbol, and a symbol is only
    registered with its band. -/
def EngineCall.InBands (minPrice maxPrice : UInt32 → Int) : EngineCall → Prop
  | .addSymbol symbol lowest highest _ _ => lowest = minPrice symbol ∧ highest = maxPrice symbol
  | .submit request => request.type = .limit →
      minPrice request.symbol ≤ request.price ∧ request.price ≤ maxPrice request.symbol
  | .amend symbol _ _ newPrice =>
      ∀ p, newPrice = some p → minPrice symbol ≤ p ∧ p ≤ maxPrice symbol
  | _ => True

/-- No book constructor throws. -/
def EngineCall.Registers (pf : Platform) : EngineCall → Prop
  | .addSymbol symbol minPrice maxPrice hint policy =>
      ∀ k : Approach, (k.create pf symbol.toNat minPrice maxPrice hint policy).isSome
  | _ => True

/-! ## Section 3: Simulation -/

/-- A book stands for a reference book without timestamps. -/
structure Stands {k : Approach} (pf : Platform) (b : k.Book) (r : RefBook) : Prop where
  valid : b.Valid pf True
  fits : b.reference.Fits r.inRange
  erased : b.reference.erase r.inRange = r

section simulation

variable {k : Approach} {pf : Platform} {b : k.Book} {r : RefBook}

/-- A book call goes as the reference book says, whatever the clock shows. -/
theorem Stands.call (h : Stands pf b r) {c : Call} (hz : c.NonZero) (hin : c.InBand r.inRange)
    (now : Clock) :
    ∃ reply b', b.call pf (c, now) = some (reply, b') ∧
      reply.untimed = (r.call pf (c.untimed, fun _ => 0)).1 ∧
      Stands pf b' (r.call pf (c.untimed, fun _ => 0)).2 ∧
      (r.call pf (c.untimed, fun _ => 0)).2.inRange = r.inRange := by
  obtain ⟨b', hrun, hvalid, href⟩ := h.valid.call_spec c now fun _ => hz
  have hcall := RefBook.erase_call pf h.valid.sound h.fits.takes_iff h.fits.holds hin now
  rw [h.erased] at hcall
  have heff := RefBook.call_effect pf h.valid.sound c now
  have hfits := heff.fits h.fits hin
  rw [← href] at hfits
  refine ⟨_, b', hrun, by rw [hcall], ?_, by rw [hcall]; rfl⟩
  rw [hcall, ← href]
  exact ⟨hvalid, hfits, rfl⟩

theorem Stands.observe_eq (h : Stands pf b r) : b.observe.upTo kMaxViews = r.answers pf := by
  rw [h.valid.observe_eq, RefBook.observe_upTo (fun n hn => k.reserve_eq hn), RefBook.answers,
    ← h.erased, RefBook.erase_observe]

/-- A new book. -/
theorem Stands.create {symbol : SymbolId} {minPrice maxPrice : Int} {hint : Nat}
    {stpPolicy : SelfTradePrevention}
    (hb : k.create pf symbol minPrice maxPrice hint stpPolicy = some b) :
    Stands pf b ⟨symbol, stpPolicy, Approach.array.accepts minPrice maxPrice, fun _ => []⟩ := by
  obtain ⟨hvalid, href⟩ := Approach.create_spec True hb
  exact ⟨hvalid, Approach.create_fits hb, by rw [href]; rfl⟩

/-- Crediting does not look at timestamps. -/
theorem foldl_onTrade_untimed (trades : List Trade) (rm : RiskManager) :
    (trades.map Trade.untimed).foldl (RiskManager.onTrade pf) rm =
      trades.foldl (RiskManager.onTrade pf) rm := by
  rw [List.foldl_map]
  rfl

/-- Books related one by one stay so when those of a symbol are replaced. -/
theorem rel_update {α β : Type} {R : SymbolId → α → β → Prop} {f : SymbolId → Option α}
    {g : SymbolId → Option β} (h : ∀ s, Option.Rel (R s) (f s) (g s)) {s : SymbolId} {a : α} {b : β}
    (hab : R s a b) (s' : SymbolId) :
    Option.Rel (R s') (Function.update f s (some a) s') (Function.update g s (some b) s') := by
  by_cases hs : s' = s
  · subst hs
    rw [Function.update_self, Function.update_self]
    exact .some hab
  · rw [Function.update_of_ne hs, Function.update_of_ne hs]
    exact h s'

/-- Both have a book, or neither. -/
theorem rel_cases {α β : Type} {R : α → β → Prop} {a? : Option α} {b? : Option β}
    (h : Option.Rel R a? b?) :
    (a? = none ∧ b? = none) ∨ ∃ a b, a? = some a ∧ b? = some b ∧ R a b := by
  cases h with
  | none => exact .inl ⟨rfl, rfl⟩
  | some hab => exact .inr ⟨_, _, rfl, rfl, hab⟩

/-- The book of a symbol stands for a reference book over the symbol's band. -/
structure Opens (pf : Platform) (minPrice maxPrice : UInt32 → Int) (s : SymbolId) (b : k.Book)
    (r : RefBook) : Prop where
  stands : Stands pf b r
  band : ∀ symbol : UInt32, symbol.toNat = s →
    r.inRange = Approach.array.accepts (minPrice symbol) (maxPrice symbol)

/-- An engine stands for one over reference books. -/
structure Simulates (pf : Platform) (minPrice maxPrice : UInt32 → Int) (e : MatchingEngine k)
    (t : ReferenceEngine) : Prop where
  books : ∀ s, Option.Rel (Opens pf minPrice maxPrice s) (e.books s) (t.books s)
  risk : e.riskManager = t.riskManager
  counter : e.nextOrderId = t.nextOrderId

variable {minPrice maxPrice : UInt32 → Int} {e : MatchingEngine k} {t : ReferenceEngine}

theorem Simulates.observe_eq (h : Simulates pf minPrice maxPrice e t) :
    e.observe.upTo kMaxViews = t.answers pf := by
  unfold MatchingEngine.observe EngineObservation.upTo ReferenceEngine.answers
  rw [h.risk]
  congr 1
  funext s
  show ((e.books s).map OrderBook.observe).map (Observation.upTo kMaxViews) = _
  obtain ⟨hb, hr⟩ | ⟨b, r, hb, hr, hopens⟩ := rel_cases (h.books s)
  · rw [hb, hr]
    rfl
  · rw [hb, hr]
    exact congrArg some hopens.stands.observe_eq

/-- A new book of a symbol. -/
theorem Opens.create {symbol : UInt32} {lowest highest : Int} {hint : Nat}
    {policy : SelfTradePrevention}
    (hin : (EngineCall.addSymbol symbol lowest highest hint policy).InBands minPrice maxPrice)
    (hb : k.create pf symbol.toNat lowest highest hint policy = some b) :
    Opens pf minPrice maxPrice symbol.toNat b
      ⟨symbol.toNat, policy, Approach.array.accepts lowest highest, fun _ => []⟩ where
  stands := .create hb
  band := by
    intro symbol' heq
    obtain rfl := UInt32.toNat_inj.mp heq
    rw [hin.1, hin.2]

/-- A call that reaches a book. -/
theorem Simulates.onBook (h : Simulates pf minPrice maxPrice e t) {s : UInt32}
    (hopens : Opens pf minPrice maxPrice s.toNat b r) {c : Call} (hz : c.NonZero)
    (hin : c.InBand (Approach.array.accepts (minPrice s) (maxPrice s))) (now : Clock) :
    ∃ reply e', e.onBook pf s.toNat b c now = some (reply, e') ∧
      reply.untimed = (t.onBook pf s.toNat r c).1 ∧
      Simulates pf minPrice maxPrice e' (t.onBook pf s.toNat r c).2 := by
  have hband := hopens.band s rfl
  obtain ⟨reply, b', hrun, hreply, hstands', hrange⟩ :=
    hopens.stands.call hz (by rw [hband]; exact hin) now
  have hopens' : Opens pf minPrice maxPrice s.toNat b' (r.call pf (c.untimed, fun _ => 0)).2 :=
    ⟨hstands', fun symbol heq => hrange.trans (hopens.band symbol heq)⟩
  have hcredit : reply.trades.foldl (RiskManager.onTrade pf) e.riskManager =
      (r.call pf (c.untimed, fun _ => 0)).1.trades.foldl (RiskManager.onTrade pf)
        t.riskManager := by
    rw [← hreply, h.risk]
    exact (foldl_onTrade_untimed reply.trades _).symm
  refine ⟨reply, _, by simp only [MatchingEngine.onBook, hrun]; rfl, hreply, ?_⟩
  exact ⟨rel_update h.books hopens', hcredit, h.counter⟩

/-- A call that goes to the book of its symbol, if there is one. -/
theorem Simulates.route (h : Simulates pf minPrice maxPrice e t) (s : UInt32) (missing : Answer)
    {c : Call} (hz : c.NonZero)
    (hin : c.InBand (Approach.array.accepts (minPrice s) (maxPrice s))) (now : Clock) :
    ∃ reply e', (match e.books s.toNat with
        | none => pure (⟨missing, []⟩, e)
        | some b => e.onBook pf s.toNat b c now : Run (Reply × MatchingEngine k)) =
          some (reply, e') ∧
      reply.untimed = (t.route pf s.toNat missing c).1 ∧
      Simulates pf minPrice maxPrice e' (t.route pf s.toNat missing c).2 := by
  unfold ReferenceEngine.route
  obtain ⟨hb, hr⟩ | ⟨b, r, hb, hr, hopens⟩ := rel_cases (h.books s.toNat)
  · rw [hb, hr]
    exact ⟨_, e, rfl, rfl, h⟩
  · rw [hb, hr]
    exact h.onBook hopens hz hin now

/-- A submitted order, while the counter has not come round to zero. -/
theorem Simulates.submitOrder (h : Simulates pf minPrice maxPrice e t) {request : OrderRequest}
    (hin : (EngineCall.submit request).InBands minPrice maxPrice) (hpos : t.nextOrderId ≠ 0)
    (now : Clock) :
    ∃ reply e', e.submitOrder pf request now = some (reply, e') ∧
      reply.untimed = (t.submitOrder pf request (now 0)).1 ∧
      Simulates pf minPrice maxPrice e' (t.submitOrder pf request (now 0)).2 := by
  have hassign : e.assignId request = if request.clientOrderId ≠ 0 then
      (request.clientOrderId, t.nextOrderId) else (t.nextOrderId, t.nextOrderId + 1) := by
    rw [MatchingEngine.assignId, h.counter]
  unfold MatchingEngine.submitOrder ReferenceEngine.submitOrder
  rw [hassign, h.risk]
  -- the id that either way is assigned is a real one
  have hid : (if request.clientOrderId ≠ 0 then (request.clientOrderId, t.nextOrderId)
      else (t.nextOrderId, t.nextOrderId + 1)).1 ≠ 0 := by
    split
    · assumption
    · exact hpos
  revert hid
  generalize (if request.clientOrderId ≠ 0 then (request.clientOrderId, t.nextOrderId)
      else (t.nextOrderId, t.nextOrderId + 1)) = assigned
  intro hid
  generalize t.riskManager.checkNewOrder pf request.symbol.toNat request.participantId.toNat
    request.side request.quantity (now 0) = checked
  obtain ⟨id, n⟩ := assigned
  obtain ⟨reason, rm⟩ := checked
  obtain ⟨hb, hr⟩ | ⟨b, r, hb, hr, hopens⟩ := rel_cases (h.books request.symbol.toNat)
  · rw [hb, hr]
    exact ⟨_, e, rfl, rfl, h⟩
  · rw [hb, hr]
    have hchecked : Simulates pf minPrice maxPrice ({ e with riskManager := rm, nextOrderId := n } :
        MatchingEngine k) { t with riskManager := rm, nextOrderId := n } :=
      ⟨h.books, rfl, rfl⟩
    by_cases hreason : reason ≠ .none
    · simp only [if_pos hreason]
      exact ⟨_, _, rfl, rfl, hchecked⟩
    · simp only [if_neg hreason]
      refine hchecked.onBook hopens ?_ ?_ _
      · show id.toNat ≠ 0
        intro hz
        exact hid (UInt64.toNat_inj.mp hz)
      · intro htype
        exact decide_eq_true (hin htype)

/-- A symbol is registered. -/
theorem Simulates.addSymbol (h : Simulates pf minPrice maxPrice e t) {symbol : UInt32}
    {lowest highest : Int} {hint : Nat} {policy : SelfTradePrevention}
    (hin : (EngineCall.addSymbol symbol lowest highest hint policy).InBands minPrice maxPrice)
    (hregister : (EngineCall.addSymbol symbol lowest highest hint policy).Registers pf) :
    Simulates pf minPrice maxPrice (e.addSymbol pf symbol.toNat lowest highest hint policy)
      (t.addSymbol symbol.toNat lowest highest policy) := by
  obtain ⟨b, hb⟩ := Option.isSome_iff_exists.mp (hregister k)
  unfold MatchingEngine.addSymbol ReferenceEngine.addSymbol
  obtain ⟨hnone, hr⟩ | ⟨b', r, hb', hr, -⟩ := rel_cases (h.books symbol.toNat)
  · simp only [hnone, hr, hb]
    exact ⟨rel_update h.books (.create hin hb), h.risk, h.counter⟩
  · simp only [hb', hr]
    exact h

/-- **Step**: an engine over any kind of book goes as the reference engine. -/
theorem Simulates.call (h : Simulates pf minPrice maxPrice e t) {a : EngineCall × Clock}
    (hin : a.1.InBands minPrice maxPrice) (hregister : a.1.Registers pf)
    (hpos : t.nextOrderId ≠ 0) :
    ∃ reply e', e.call pf a = some (reply, e') ∧
      reply.untimed = (t.call pf (EngineCall.received a)).1 ∧
      Simulates pf minPrice maxPrice e' (t.call pf (EngineCall.received a)).2 := by
  obtain ⟨c, now⟩ := a
  cases c with
  | addSymbol symbol lowest highest hint policy =>
    exact ⟨_, _, rfl, rfl, h.addSymbol hin hregister⟩
  | submit request => exact h.submitOrder hin hpos now
  | cancel symbol id => exact h.route (c := .cancel id) symbol (.flag false) trivial trivial now
  | amend symbol id newQuantity newPrice =>
    refine h.route (c := .amend id newQuantity newPrice) symbol _ trivial ?_ now
    intro p hp
    exact decide_eq_true (hin p hp)
  | resetSymbol symbol => exact h.route (c := .reset) symbol .done trivial trivial now
  | setRiskLimits symbol participant limits =>
    refine ⟨_, _, rfl, rfl, ⟨h.books, ?_, h.counter⟩⟩
    simp only [EngineCall.received, ReferenceEngine.call, MatchingEngine.setRiskLimits]
    rw [h.risk]

/-- The id counter moves by one at most. -/
theorem ReferenceEngine.call_counter (pf : Platform) (t : ReferenceEngine)
    (a : EngineCall × Timestamp) :
    (t.call pf a).2.nextOrderId = t.nextOrderId ∨
      (t.call pf a).2.nextOrderId = t.nextOrderId + 1 := by
  have hroute : ∀ s missing c, (t.route pf s missing c).2.nextOrderId = t.nextOrderId := by
    intro s missing c
    unfold route
    split <;> rfl
  obtain ⟨c, receiptTime⟩ := a
  cases c with
  | addSymbol symbol lowest highest hint policy =>
    refine .inl ?_
    simp only [ReferenceEngine.call, ReferenceEngine.addSymbol]
    split <;> rfl
  | submit request =>
    simp only [ReferenceEngine.call, ReferenceEngine.submitOrder]
    split
    · exact .inl rfl
    · by_cases hid : request.clientOrderId ≠ 0
      · refine .inl ?_
        simp only [if_pos hid]
        split <;> rfl
      · refine .inr ?_
        simp only [if_neg hid]
        split <;> rfl
  | cancel | amend | resetSymbol => exact .inl (hroute _ _ _)
  | setRiskLimits => exact .inl rfl

end simulation

/-! ## Section 4: Equivalence -/

/-- What the calls still to come have to respect: the counter does not come
    round to zero before they are over. -/
structure Pending {k : Approach} (pf : Platform) (minPrice maxPrice : UInt32 → Int)
    (as : List (EngineCall × Clock)) (e : MatchingEngine k) (t : ReferenceEngine) : Prop where
  simulates : Simulates pf minPrice maxPrice e t
  calls : ∀ a ∈ as, a.1.InBands minPrice maxPrice ∧ a.1.Registers pf
  positive : 0 < t.nextOrderId.toNat
  room : t.nextOrderId.toNat + as.length < 2 ^ 64

theorem Pending.step {k : Approach} {pf : Platform} {minPrice maxPrice : UInt32 → Int}
    {e : MatchingEngine k} {t : ReferenceEngine} {a : EngineCall × Clock}
    {as : List (EngineCall × Clock)} (h : Pending pf minPrice maxPrice (a :: as) e t) :
    ∃ w e', e.observedCall pf a = some (w, e') ∧
      Prod.map Reply.untimed (EngineObservation.upTo kMaxViews) w =
        (t.observedCall pf (EngineCall.received a)).1 ∧
      Pending pf minPrice maxPrice as e' (t.observedCall pf (EngineCall.received a)).2 := by
  obtain ⟨hin, hregister⟩ := h.calls a (by simp)
  have hpos : t.nextOrderId ≠ 0 := by
    intro hz
    have := h.positive
    rw [hz] at this
    exact Nat.lt_irrefl 0 this
  obtain ⟨reply, e', hrun, hreply, hsim⟩ := h.simulates.call hin hregister hpos
  have hroom := h.room
  rw [List.length_cons] at hroom
  have hpositive := h.positive
  have hnext : (t.nextOrderId + 1).toNat = t.nextOrderId.toNat + 1 := by
    rw [UInt64.toNat_add]
    exact Nat.mod_eq_of_lt (by show t.nextOrderId.toNat + 1 < 2 ^ 64; omega)
  refine ⟨(reply, e'.observe), e', by simp only [MatchingEngine.observedCall, hrun]; rfl, ?_, ?_⟩
  · exact Prod.ext hreply hsim.observe_eq
  · refine ⟨hsim, fun b hb => h.calls b (by simp [hb]), ?_, ?_⟩
    · show 0 < (t.call pf (EngineCall.received a)).2.nextOrderId.toNat
      rcases t.call_counter pf (EngineCall.received a) with heq | heq <;> rw [heq] <;> omega
    · show (t.call pf (EngineCall.received a)).2.nextOrderId.toNat + as.length < 2 ^ 64
      rcases t.call_counter pf (EngineCall.received a) with heq | heq <;> rw [heq] <;> omega

/-- **One behaviour**: run engines over the three kinds of book with the same
    calls, every one at its own clock but for the receipt times of orders.  All
    calls and queries return, and there is one transcript of results, trades
    (timestamps aside), risk state and query answers after each call that the
    three engines produce, as long as depths are asked for no more levels than a
    vector of them can hold. -/
theorem three_engines_one_behaviour (pf : Platform) (rm : RiskManager)
    (minPrice maxPrice : UInt32 → Int) (calls : List (EngineCall × Timestamp))
    (hcalls : ∀ a ∈ calls, a.1.InBands minPrice maxPrice ∧ a.1.Registers pf)
    (hcount : calls.length < 2 ^ 64 - 1) (timed : Approach → List (EngineCall × Clock))
    (htimed : ∀ k, (timed k).map EngineCall.received = calls) :
    ∃ transcript : List (Reply × EngineObservation), (∀ x ∈ transcript, x.2.Answered) ∧
      ∀ k, ∃ observed e',
        Runs.exec (MatchingEngine.observedCall pf) ({ riskManager := rm } : MatchingEngine k)
            (timed k) = some (observed, e') ∧
          observed.map (Prod.map Reply.untimed (EngineObservation.upTo kMaxViews)) =
            transcript := by
  let start : ReferenceEngine := { riskManager := rm }
  refine ⟨(Runs.execSpec (ReferenceEngine.observedCall pf) start calls).1,
    Runs.execSpec_forall (P := fun x : Reply × EngineObservation => x.2.Answered)
      (fun t a => (t.call pf a).2.answered pf) calls start, fun k => ?_⟩
  have hreceived : ∀ a : EngineCall × Clock, (EngineCall.received a).1 = a.1 := by
    rintro ⟨c, now⟩
    cases c <;> rfl
  have hstart : Pending pf minPrice maxPrice (timed k) ({ riskManager := rm } : MatchingEngine k)
      start := by
    refine ⟨⟨fun _ => .none, rfl, rfl⟩, ?_, ?_, ?_⟩
    · intro a ha
      rw [← hreceived]
      exact hcalls _ (htimed k ▸ List.mem_map_of_mem ha)
    · show 0 < (1 : UInt64).toNat
      decide
    · have hlen := congrArg List.length (htimed k)
      rw [List.length_map] at hlen
      show (1 : UInt64).toNat + (timed k).length < 2 ^ 64
      rw [show (1 : UInt64).toNat = 1 from rfl]
      omega
  obtain ⟨observed, e', hrun, hout, -⟩ := Runs.exec_simulates_rest EngineCall.received
    (Prod.map Reply.untimed (EngineObservation.upTo kMaxViews)) (Pending pf minPrice maxPrice)
    (fun a as e t h => h.step) (timed k) _ start hstart
  rw [htimed k] at hout
  exact ⟨observed, e', hrun, hout⟩

/-- One symbol of two is registered.  A bid rests, is hit and is amended to a
    better price; an order is too large for the limits, and one is for the
    other symbol.  The clocks disagree but for the receipt times. -/
theorem three_engines_one_behaviour_mixed :
    ∃ transcript : List (Reply × EngineObservation), (∀ x ∈ transcript, x.2.Answered) ∧
      ∀ k : Approach, ∃ observed e',
        Runs.exec (MatchingEngine.observedCall .int64) ({} : MatchingEngine k)
          ([.addSymbol 1 90 110 4 .cancelResting, .setRiskLimits 1 7 { maxOrderSize := 5 },
            .submit { symbol := 1, side := .buy, price := 100, quantity := 5, participantId := 7 },
            .submit { symbol := 1, side := .sell, type := .market, quantity := 2 },
            .submit { symbol := 1, side := .buy, price := 99, quantity := 6, participantId := 7 },
            .submit { symbol := 2, side := .buy, price := 99, quantity := 6 },
            .amend 1 1 9 (some 101), .cancel 1 1, .resetSymbol 1].map
              fun c => (c, fun n => if k = .map then n else 40 * n)) = some (observed, e') ∧
          observed.map (Prod.map Reply.untimed (EngineObservation.upTo kMaxViews)) =
            transcript := by
  have hsome : ∀ k : Approach, (k.create .int64 1 90 110 4 .cancelResting).isSome = true := by
    intro k
    cases k <;> decide +kernel
  refine three_engines_one_behaviour .int64 {} (fun _ => 90) (fun _ => 110)
    ([.addSymbol 1 90 110 4 .cancelResting, .setRiskLimits 1 7 { maxOrderSize := 5 },
      .submit { symbol := 1, side := .buy, price := 100, quantity := 5, participantId := 7 },
      .submit { symbol := 1, side := .sell, type := .market, quantity := 2 },
      .submit { symbol := 1, side := .buy, price := 99, quantity := 6, participantId := 7 },
      .submit { symbol := 2, side := .buy, price := 99, quantity := 6 },
      .amend 1 1 9 (some 101), .cancel 1 1, .resetSymbol 1].map fun c => (c, 0)) ?_ (by decide) _ ?_
  · simpa [EngineCall.InBands, EngineCall.Registers] using hsome
  · intro k
    simp [EngineCall.received]

end LightningLob
