import LightningLob.MatchingEngine
import LightningLob.Ownership
import LightningLob.RiskChecks

/-! # What one engine call can do

    Every registered symbol of a running engine has a valid book of its own.
    `Effect` lists the ways a call on the engine can go; the calls that reach
    a book are what `RefBook.Effect` says of that book.  Invariants of engine
    runs are proved by cases on it. -/

namespace LightningLob

namespace MatchingEngine

variable {k : Approach} {pf : Platform} {e e' : MatchingEngine k}

/-! ## Section 1: The ways a call can go -/

/-- Every registered symbol has a valid book of its own. -/
def Valid (pf : Platform) (e : MatchingEngine k) : Prop :=
  ∀ s b, e.books s = some b → b.Valid pf False ∧ b.symbol = s

/-- The engine as it starts, around any risk manager. -/
theorem valid_initial (rm : RiskManager) : Valid pf ({ riskManager := rm } : MatchingEngine k) := by
  intro s b hb
  cases hb

/-- The call goes on to the book of a symbol, with the risk manager and the
    id counter the engine has by then. -/
inductive Forwards (pf : Platform) (e : MatchingEngine k) :
    EngineCall × Clock → SymbolId → Call × Clock → RiskManager → UInt64 → Prop where
  | submit {request now rm}
      (hcheck : e.riskManager.checkNewOrder pf request.symbol.toNat request.participantId.toNat
        request.side request.quantity (now 0) = (.none, rm)) :
      Forwards pf e (.submit request, now) request.symbol.toNat
        (.add (request.toOrder (e.assignId request).1.toNat (now 0)), fun i => now (i + 1)) rm
        (e.assignId request).2
  | cancel {symbol id now} : Forwards pf e (.cancel symbol id, now) symbol.toNat (.cancel id, now)
      e.riskManager e.nextOrderId
  | amend {symbol id newQuantity newPrice now} :
      Forwards pf e (.amend symbol id newQuantity newPrice, now) symbol.toNat
        (.amend id newQuantity newPrice, now) e.riskManager e.nextOrderId
  | reset {symbol now} : Forwards pf e (.resetSymbol symbol, now) symbol.toNat (.reset, now)
      e.riskManager e.nextOrderId

/-- The engine after a book has taken a call. -/
def booked (pf : Platform) (e : MatchingEngine k) (symbol : SymbolId) (b : k.Book)
    (trades : List Trade) (rm : RiskManager) (nextOrderId : UInt64) : MatchingEngine k where
  books := Function.update e.books symbol (some b)
  riskManager := trades.foldl (RiskManager.onTrade pf) rm
  nextOrderId := nextOrderId

/-- The caller sees `reply` of the call, and the engine becomes the last
    argument. -/
inductive Effect (pf : Platform) (e : MatchingEngine k) :
    EngineCall × Clock → Reply → MatchingEngine k → Prop where
  /-- The symbol of the call has no book, or there is nothing to register. -/
  | idle {a answer}
      (hsubmit : ∀ request, a.1 = .submit request → e.books request.symbol.toNat = none ∧
        answer = .report (.reject request.clientOrderId.toNat .unknownSymbol)) :
      Effect pf e a ⟨answer, []⟩ e
  | registered {symbol minPrice maxPrice hint policy now b} (hnone : e.books symbol.toNat = none)
      (hb : k.create pf symbol.toNat minPrice maxPrice hint policy = some b) :
      Effect pf e (.addSymbol symbol minPrice maxPrice hint policy, now) ⟨.done, []⟩
        { e with books := Function.update e.books symbol.toNat (some b) }
  | limited {symbol participant limits now} :
      Effect pf e (.setRiskLimits symbol participant limits, now) ⟨.done, []⟩
        (e.setRiskLimits symbol.toNat participant.toNat limits)
  /-- The risk check refuses the order. -/
  | refused {request now reason rm b} (hbook : e.books request.symbol.toNat = some b)
      (hcheck : e.riskManager.checkNewOrder pf request.symbol.toNat request.participantId.toNat
        request.side request.quantity (now 0) = (reason, rm)) (hreason : reason ≠ .none) :
      Effect pf e (.submit request, now)
        ⟨.report (.reject (e.assignId request).1.toNat reason), []⟩
        { e with riskManager := rm, nextOrderId := (e.assignId request).2 }
  /-- A book takes the call. -/
  | booked {a symbol c rm nextOrderId b b'} (hbook : e.books symbol = some b)
      (hforward : Forwards pf e a symbol c rm nextOrderId)
      (hreference : b'.reference = (b.reference.call pf c).2) :
      Effect pf e a (b.reference.call pf c).1
        (e.booked pf symbol b' (b.reference.call pf c).1.trades rm nextOrderId)

/-! ## Section 2: Every call is one of them -/

/-- A call on a valid book, made by the engine. -/
theorem Valid.onBook_spec (h : e.Valid pf) {symbol : SymbolId} {b : k.Book}
    (hbook : e.books symbol = some b) (c : Call × Clock) (rm : RiskManager) (n : UInt64) :
    ∃ b', onBook pf { e with riskManager := rm, nextOrderId := n } symbol b c.1 c.2 =
        some ((b.reference.call pf c).1,
          e.booked pf symbol b' (b.reference.call pf c).1.trades rm n) ∧
      b'.reference = (b.reference.call pf c).2 ∧
      (e.booked pf symbol b' (b.reference.call pf c).1.trades rm n).Valid pf := by
  obtain ⟨hvalid, hsym⟩ := h symbol b hbook
  obtain ⟨b', hrun, hvalid', href⟩ := hvalid.call_spec c.1 c.2 (by simp)
  refine ⟨b', by simp [onBook, hrun, booked], href, ?_⟩
  intro s b₁ hb₁
  unfold booked at hb₁
  by_cases hs : s = symbol
  · subst hs
    have hb' : b₁ = b' := by simpa using hb₁.symm
    have hsetup := (RefBook.call_effect pf hvalid.sound c.1 c.2).setup
    rw [← href] at hsetup
    rw [hb']
    exact ⟨hvalid', hsetup.symbol_eq.trans hsym⟩
  · exact h s b₁ (by simpa [hs] using hb₁)

theorem Valid.submitOrder_spec (h : e.Valid pf) (request : OrderRequest) (now : Clock) :
    ∃ reply e', e.submitOrder pf request now = some (reply, e') ∧
      e.Effect pf (.submit request, now) reply e' ∧ e'.Valid pf := by
  cases hbook : e.books request.symbol.toNat with
  | none =>
    refine ⟨_, e, by simp only [submitOrder, hbook]; rfl, .idle ?_, h⟩
    intro request' heq
    cases heq
    exact ⟨hbook, rfl⟩
  | some b =>
    rcases hcheck : e.riskManager.checkNewOrder pf request.symbol.toNat
      request.participantId.toNat request.side request.quantity (now 0) with ⟨reason, rm⟩
    by_cases hreason : reason = .none
    · subst hreason
      obtain ⟨b', hrun, href, hvalid⟩ := h.onBook_spec hbook
        (.add (request.toOrder (e.assignId request).1.toNat (now 0)), fun i => now (i + 1)) rm
        (e.assignId request).2
      refine ⟨_, _, ?_, .booked hbook (.submit hcheck) href, hvalid⟩
      simp only [submitOrder, hbook, hcheck]
      exact hrun
    · refine ⟨_, { e with riskManager := rm, nextOrderId := (e.assignId request).2 }, ?_,
        .refused hbook hcheck hreason, h⟩
      simp only [submitOrder, hbook, hcheck]
      rw [if_pos hreason]
      rfl

/-- **Inversion**: on a valid engine every call returns, goes one of the ways
    and leaves a valid engine. -/
theorem Valid.call_spec (h : e.Valid pf) (a : EngineCall × Clock) :
    ∃ reply e', e.call pf a = some (reply, e') ∧ e.Effect pf a reply e' ∧ e'.Valid pf := by
  obtain ⟨c, now⟩ := a
  cases c with
  | submit request => exact h.submitOrder_spec request now
  | setRiskLimits symbol participant limits => exact ⟨_, _, rfl, .limited, h⟩
  | addSymbol symbol minPrice maxPrice hint policy =>
    cases hbook : e.books symbol.toNat with
    | some b =>
      simp only [call, addSymbol, hbook]
      exact ⟨_, e, rfl, .idle (by simp), h⟩
    | none =>
      cases hb : k.create pf symbol.toNat minPrice maxPrice hint policy with
      | none =>
        simp only [call, addSymbol, hbook, hb]
        exact ⟨_, e, rfl, .idle (by simp), h⟩
      | some b =>
        simp only [call, addSymbol, hbook, hb]
        refine ⟨_, _, rfl, .registered hbook hb, ?_⟩
        obtain ⟨hvalid, href⟩ := Approach.create_spec False hb
        intro s b₁ hb₁
        by_cases hs : s = symbol.toNat
        · subst hs
          have hb' : b₁ = b := by simpa using hb₁.symm
          rw [hb']
          exact ⟨hvalid, congrArg RefBook.symbol href⟩
        · exact h s b₁ (by simpa [hs] using hb₁)
  | cancel symbol id =>
    cases hbook : e.books symbol.toNat with
    | none =>
      simp only [call, cancelOrder, hbook]
      exact ⟨_, e, rfl, .idle (by simp), h⟩
    | some b =>
      simp only [call, cancelOrder, hbook]
      obtain ⟨b', hrun, href, hvalid⟩ := h.onBook_spec hbook (.cancel id, now) e.riskManager
        e.nextOrderId
      exact ⟨_, _, hrun, .booked hbook .cancel href, hvalid⟩
  | amend symbol id newQuantity newPrice =>
    cases hbook : e.books symbol.toNat with
    | none =>
      simp only [call, amendOrder, hbook]
      exact ⟨_, e, rfl, .idle (by simp), h⟩
    | some b =>
      simp only [call, amendOrder, hbook]
      obtain ⟨b', hrun, href, hvalid⟩ := h.onBook_spec hbook (.amend id newQuantity newPrice, now)
        e.riskManager e.nextOrderId
      exact ⟨_, _, hrun, .booked hbook .amend href, hvalid⟩
  | resetSymbol symbol =>
    cases hbook : e.books symbol.toNat with
    | none =>
      simp only [call, resetSymbol, hbook]
      exact ⟨_, e, rfl, .idle (by simp), h⟩
    | some b =>
      simp only [call, resetSymbol, hbook]
      obtain ⟨b', hrun, href, hvalid⟩ := h.onBook_spec hbook (.reset, now) e.riskManager
        e.nextOrderId
      exact ⟨_, _, hrun, .booked hbook .reset href, hvalid⟩

/-! ## Section 3: What a call does to one symbol -/

/-- What a call does to the book of a symbol. -/
inductive BookStep (pf : Platform) (e : MatchingEngine k) (a : EngineCall × Clock) (reply : Reply)
    (e' : MatchingEngine k) (s : SymbolId) : Prop where
  | untouched (hbooks : e'.books s = e.books s) (htrades : ∀ t ∈ reply.trades, t.symbol ≠ s)
  | created (b' : k.Book) (hbook' : e'.books s = some b') (hempty : b'.reference.all = [])
      (htrades : reply.trades = [])
  | called (b b' : k.Book) (c : Call × Clock) (rm : RiskManager) (n : UInt64)
      (hbook : e.books s = some b) (hbook' : e'.books s = some b')
      (hforward : Forwards pf e a s c rm n) (hreply : reply = (b.reference.call pf c).1)
      (heffect : b.reference.Effect c.1 reply b'.reference)

theorem Effect.bookStep {a : EngineCall × Clock} {reply : Reply} (h : e.Effect pf a reply e')
    (hv : e.Valid pf) (s : SymbolId) : BookStep pf e a reply e' s := by
  cases h with
  | idle | limited | refused => exact .untouched rfl (by simp)
  | @registered symbol minPrice maxPrice hint policy now b hnone hb =>
    by_cases hs : s = symbol.toNat
    · refine .created b (by simp [hs]) ?_ rfl
      rw [(Approach.create_spec False hb).2]
      rfl
    · exact .untouched (by simp [hs]) (by simp)
  | @booked a symbol c rm n b b' hbook hforward href =>
    obtain ⟨hvalid, hsym⟩ := hv symbol b hbook
    have heffect := RefBook.call_effect pf hvalid.sound c.1 c.2
    by_cases hs : s = symbol
    · subst hs
      exact .called b b' c rm n hbook (by simp [MatchingEngine.booked]) hforward rfl
        (by rw [href]; exact heffect)
    · refine .untouched (by simp [MatchingEngine.booked, hs]) ?_
      intro t ht hts
      have htrade := (heffect.tradedBy hvalid.sound ht).symbol_eq
      exact hs (hts.symm.trans (htrade.trans hsym))

end MatchingEngine

end LightningLob
