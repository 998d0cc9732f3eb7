import LightningLob.EngineRuns

/-! # An engine is a set of book sessions

    What a symbol's book was asked can be told from the calls on the engine and
    their replies.  Each book of a running engine is the book of a session of
    its own: built by the constructor that `add_symbol` calls, and then asked
    just that.  So all that holds of the books on their own holds of the books
    of an engine. -/

namespace LightningLob

/-! ## Section 1: What a book is asked -/

/-- The reasons the risk manager gives. -/
def RejectReason.isRisk : RejectReason → Bool
  | .riskMaxOrderSize | .riskMaxPosition | .riskRateLimited => true
  | _ => false

/-- The call that the book of a symbol gets, by the reply to the engine's
    caller: an order goes to the book unless the risk manager refused it, under
    the id that the report names. -/
def EngineCall.forwarded (s : SymbolId) : (EngineCall × Clock) × Reply → Option (Call × Clock)
  | ((.submit request, now), ⟨.report report, _⟩) =>
      if request.symbol.toNat = s ∧ ¬ report.rejectReason.isRisk then
        some (.add (request.toOrder report.orderId (now 0)), fun i => now (i + 1))
      else
        none
  | ((.cancel symbol id, now), _) => if symbol.toNat = s then some (.cancel id, now) else none
  | ((.amend symbol id newQuantity newPrice, now), _) =>
      if symbol.toNat = s then some (.amend id newQuantity newPrice, now) else none
  | ((.resetSymbol symbol, now), _) => if symbol.toNat = s then some (.reset, now) else none
  | _ => none

/-- What the book of a symbol was asked, and what it replied. -/
def asked (s : SymbolId) (history : List ((EngineCall × Clock) × Reply)) :
    List ((Call × Clock) × Reply) :=
  history.filterMap fun x => (EngineCall.forwarded s x).map fun c => (c, x.2)

theorem asked_append (s : SymbolId) (h h' : List ((EngineCall × Clock) × Reply)) :
    asked s (h ++ h') = asked s h ++ asked s h' :=
  List.filterMap_append ..

/-- An order that is accepted is reported without a reason. -/
theorem RefBook.execute_reason (r : RefBook) (order : Order) (now : Clock) :
    (r.execute order now).report.rejectReason = .none := by
  unfold execute
  by_cases h₁ : (r.matched order).remaining = 0
  · simp only [h₁, if_true]
  by_cases h₂ : ¬ (r.matched order).killed = true ∧ order.restsInBook = true
  · simp only [if_neg h₁, if_pos h₂]
  · simp only [if_neg h₁, if_neg h₂]

/-- A book reports the id of the order it is given, and none of the risk
    manager's reasons. -/
theorem RefBook.addOrder_report (pf : Platform) (r : RefBook) (order : Order) (now : Clock) :
    (r.addOrder pf order now).report.orderId = order.id ∧
      (r.addOrder pf order now).report.rejectReason.isRisk = false := by
  cases hreason : r.rejectReason order with
  | some reason =>
    simp only [addOrder, hreason, ExecutionReport.reject]
    refine ⟨trivial, ?_⟩
    unfold rejectReason at hreason
    grind [RejectReason.isRisk]
  | none =>
    cases hfok : r.fokKilled pf order with
    | true => simp [addOrder, hreason, hfok, RejectReason.isRisk]
    | false =>
      rw [addOrder_accepted hreason hfok, execute_orderId, execute_reason]
      exact ⟨rfl, rfl⟩

theorem RiskManager.checkNewOrder_isRisk (pf : Platform) (rm : RiskManager) (s p : Nat)
    (side : Side) (quantity : Int) (now : Timestamp)
    (h : (rm.checkNewOrder pf s p side quantity now).1 ≠ .none) :
    (rm.checkNewOrder pf s p side quantity now).1.isRisk = true := by
  unfold checkNewOrder at *
  cases hstate : rm.state (packKey s p) with
  | none => simp [hstate] at h
  | some st =>
    simp only [hstate] at h ⊢
    unfold SymbolParticipantState.check at *
    grind [RejectReason.isRisk]

/-! ## Section 2: What a call does to one book -/

namespace MatchingEngine

variable {k : Approach} {pf : Platform} {e e' : MatchingEngine k} {a : EngineCall × Clock}
  {reply : Reply} {s : SymbolId}

/-- What the call does to the book of the symbol is what the book was asked. -/
inductive Asks (pf : Platform) (e : MatchingEngine k) (a : EngineCall × Clock) (reply : Reply)
    (e' : MatchingEngine k) (s : SymbolId) : Prop where
  | nothing (hbooks : e'.books s = e.books s)
      (hasked : e.books s ≠ none → EngineCall.forwarded s (a, reply) = none)
  | opened {symbol : UInt32} {minPrice maxPrice : Int} {hint : Nat} {policy : SelfTradePrevention}
      {now : Clock} {b : k.Book}
      (hcall : a = (.addSymbol symbol minPrice maxPrice hint policy, now))
      (hsymbol : symbol.toNat = s) (hnone : e.books s = none)
      (hb : k.create pf s minPrice maxPrice hint policy = some b) (hbook' : e'.books s = some b)
  | passed {b b' : k.Book} {c : Call × Clock} (hbook : e.books s = some b)
      (hasked : EngineCall.forwarded s (a, reply) = some c) (hrun : b.call pf c = some (reply, b'))
      (hbook' : e'.books s = some b')

/-- A call for another symbol. -/
theorem onBook_other {symbol : SymbolId} {b : k.Book} {c : Call} {now : Clock}
    (hrun : e.onBook pf symbol b c now = some (reply, e')) (hs : s ≠ symbol) :
    e'.books s = e.books s := by
  obtain ⟨⟨w, b'⟩, -, heq⟩ := Option.bind_eq_some_iff.mp hrun
  obtain ⟨rfl, rfl⟩ := Prod.mk.inj (Option.some.inj heq)
  exact Function.update_of_ne hs _ _

/-- A call for the symbol. -/
theorem onBook_own_book {b : k.Book} {c : Call} {now : Clock}
    (hrun : e.onBook pf s b c now = some (reply, e')) :
    ∃ b', b.call pf (c, now) = some (reply, b') ∧ e'.books s = some b' := by
  obtain ⟨⟨w, b'⟩, hb, heq⟩ := Option.bind_eq_some_iff.mp hrun
  obtain ⟨rfl, rfl⟩ := Prod.mk.inj (Option.some.inj heq)
  exact ⟨b', hb, Function.update_self ..⟩

/-- A call that goes to the book of its symbol, if there is one. -/
theorem routed_asks {symbol : UInt32} {c : Call} {now : Clock} {missing : Answer}
    (hrun : (match e.books symbol.toNat with
      | none => pure (⟨missing, []⟩, e)
      | some b => e.onBook pf symbol.toNat b c now : Run (Reply × MatchingEngine k)) =
        some (reply, e'))
    (hasked : ∀ reply, EngineCall.forwarded s (a, reply) =
      if symbol.toNat = s then some (c, now) else none) : Asks pf e a reply e' s := by
  cases hb : e.books symbol.toNat with
  | none =>
    simp only [hb] at hrun
    obtain ⟨rfl, rfl⟩ := Prod.mk.inj (Option.some.inj hrun)
    refine .nothing rfl ?_
    intro hsome
    rw [hasked, if_neg]
    rintro rfl
    exact hsome hb
  | some b =>
    simp only [hb] at hrun
    by_cases hs : symbol.toNat = s
    · subst hs
      obtain ⟨b', hcall, hbook'⟩ := onBook_own_book hrun
      exact .passed hb ((hasked reply).trans (if_pos rfl)) hcall hbook'
    · exact .nothing (onBook_other hrun (Ne.symm hs)) fun _ => (hasked reply).trans (if_neg hs)

theorem submitOrder_asks (hv : e.Valid pf) {request : OrderRequest} {now : Clock}
    (hrun : e.submitOrder pf request now = some (reply, e')) :
    Asks pf e (.submit request, now) reply e' s := by
  unfold submitOrder at hrun
  cases hb : e.books request.symbol.toNat with
  | none =>
    simp only [hb] at hrun
    obtain ⟨rfl, rfl⟩ := Prod.mk.inj (Option.some.inj hrun)
    refine .nothing rfl ?_
    intro hsome
    refine if_neg ?_
    rintro ⟨rfl, -⟩
    exact hsome hb
  | some b =>
    simp only [hb] at hrun
    split at hrun
    · next hreason =>
      obtain ⟨rfl, rfl⟩ := Prod.mk.inj (Option.some.inj hrun)
      refine .nothing rfl fun _ => if_neg ?_
      rintro ⟨-, hrisk⟩
      exact hrisk (RiskManager.checkNewOrder_isRisk _ _ _ _ _ _ _ hreason)
    · by_cases hs : request.symbol.toNat = s
      · subst hs
        obtain ⟨b', hcall, hbook'⟩ := onBook_own_book hrun
        refine .passed hb ?_ hcall hbook'
        -- the report names the id that was assigned
        obtain ⟨-, hreply, -⟩ := (hv _ b hb).1.call_eq (by simp) hcall
        obtain ⟨hid, hrisk⟩ := RefBook.addOrder_report pf b.reference
          (request.toOrder (e.assignId request).1.toNat (now 0)) fun i => now (i + 1)
        subst hreply
        refine (if_pos ⟨rfl, by rw [hrisk]; decide⟩).trans ?_
        rw [hid]
        rfl
      · have hother := onBook_other hrun (Ne.symm hs)
        refine .nothing hother fun _ => ?_
        obtain ⟨answer, trades⟩ := reply
        cases answer with
        | report report => exact if_neg fun h => hs h.1
        | flag | done => rfl

/-- **Inversion, book by book**. -/
theorem Valid.asks (hv : e.Valid pf) (hrun : e.call pf a = some (reply, e')) (s : SymbolId) :
    Asks pf e a reply e' s := by
  obtain ⟨c, now⟩ := a
  cases c with
  | submit request => exact submitOrder_asks hv hrun
  | cancel symbol id => exact routed_asks hrun fun _ => rfl
  | amend symbol id newQuantity newPrice => exact routed_asks hrun fun _ => rfl
  | resetSymbol symbol => exact routed_asks hrun fun _ => rfl
  | setRiskLimits symbol participant limits =>
    obtain ⟨rfl, rfl⟩ := Prod.mk.inj (Option.some.inj hrun)
    exact .nothing rfl fun _ => rfl
  | addSymbol symbol minPrice maxPrice hint policy =>
    obtain ⟨rfl, rfl⟩ := Prod.mk.inj (Option.some.inj hrun)
    unfold addSymbol
    cases hb : e.books symbol.toNat with
    | some b => exact .nothing rfl fun _ => rfl
    | none =>
      cases hcreate : k.create pf symbol.toNat minPrice maxPrice hint policy with
      | none => exact .nothing rfl fun _ => rfl
      | some b =>
        by_cases hs : symbol.toNat = s
        · subst hs
          exact .opened rfl rfl hb hcreate (Function.update_self ..)
        · exact .nothing (Function.update_of_ne (Ne.symm hs) _ _) fun _ => rfl

/-! ## Section 3: Whole runs -/

/-- Some call of the history built the book of the symbol, and the calls after
    it asked of it what makes it what it is. -/
def Session (pf : Platform) (s : SymbolId) (history : List ((EngineCall × Clock) × Reply))
    (b : k.Book) : Prop :=
  ∃ before symbol minPrice maxPrice hint policy now reply after,
    history = before ++ ((.addSymbol symbol minPrice maxPrice hint policy, now), reply) :: after ∧
      symbol.toNat = s ∧
      k.session pf s minPrice maxPrice hint policy ((asked s after).map Prod.fst) =
        some ((asked s after).map Prod.snd, b)

theorem Session.nothing {history : List ((EngineCall × Clock) × Reply)} {b : k.Book}
    (h : Session pf s history b) (hasked : EngineCall.forwarded s (a, reply) = none) :
    Session pf s (history ++ [(a, reply)]) b := by
  obtain ⟨before, symbol, minPrice, maxPrice, hint, policy, now, reply', after, rfl, hs, hrun⟩ := h
  have hsame : asked s (after ++ [(a, reply)]) = asked s after := by
    rw [asked_append]
    simp [asked, hasked]
  refine ⟨before, symbol, minPrice, maxPrice, hint, policy, now, reply', after ++ [(a, reply)],
    by simp, hs, ?_⟩
  rw [hsame]
  exact hrun

theorem Session.passed {history : List ((EngineCall × Clock) × Reply)} {b b' : k.Book}
    (h : Session pf s history b) {c : Call × Clock}
    (hasked : EngineCall.forwarded s (a, reply) = some c) (hcall : b.call pf c = some (reply, b')) :
    Session pf s (history ++ [(a, reply)]) b' := by
  obtain ⟨before, symbol, minPrice, maxPrice, hint, policy, now, reply', after, rfl, hs, hrun⟩ := h
  have hmore : asked s (after ++ [(a, reply)]) = asked s after ++ [(c, reply)] := by
    rw [asked_append]
    simp [asked, hasked]
  refine ⟨before, symbol, minPrice, maxPrice, hint, policy, now, reply', after ++ [(a, reply)],
    by simp, hs, ?_⟩
  obtain ⟨b₀, hb₀, hexec⟩ := Approach.session_eq_some.mp hrun
  rw [hmore, List.map_append, List.map_append]
  refine Approach.session_eq_some.mpr ⟨b₀, hb₀, Runs.exec_append hexec ?_⟩
  exact Runs.exec_cons_eq_some.mpr ⟨reply, b', [], hcall, rfl, rfl⟩

/-- **Step**: every book goes on with its session. -/
theorem Asks.sessions {history : List ((EngineCall × Clock) × Reply)}
    (h : Asks pf e a reply e' s) (hold : ∀ b, e.books s = some b → Session pf s history b) :
    ∀ b, e'.books s = some b → Session pf s (history ++ [(a, reply)]) b := by
  intro b' hb'
  cases h with
  | nothing hbooks hasked =>
    rw [hbooks] at hb'
    exact (hold b' hb').nothing (hasked (by rw [hb']; simp))
  | @opened symbol minPrice maxPrice hint policy now b hcall hsymbol hnone hb hbook' =>
    obtain rfl := Option.some.inj (hbook'.symm.trans hb')
    subst hcall
    exact ⟨history, symbol, minPrice, maxPrice, hint, policy, now, reply, [], rfl, hsymbol,
      Approach.session_eq_some.mpr ⟨b, hb, rfl⟩⟩
  | @passed b b₁ c hbook hasked hrun hbook' =>
    obtain rfl := Option.some.inj (hbook'.symm.trans hb')
    exact (hold b hbook).passed hasked hrun

/-- **Book sessions**: in every run of an engine, every book is that of a
    session of its own, in which it was asked the calls for its symbol that the
    risk manager let through, under the ids reported, and replied what the
    engine's callers got. -/
theorem engine_books_are_sessions (pf : Platform) (rm : RiskManager)
    (calls : List (EngineCall × Clock)) :
    ∃ replies e, Runs.exec (MatchingEngine.call pf) ({ riskManager := rm } : MatchingEngine k)
        calls = some (replies, e) ∧
      ∀ s b, e.books s = some b →
        ∃ before symbol minPrice maxPrice hint policy now reply after,
          calls.zip replies =
            before ++ ((.addSymbol symbol minPrice maxPrice hint policy, now), reply) :: after ∧
          symbol.toNat = s ∧
          k.session pf s minPrice maxPrice hint policy ((asked s after).map Prod.fst) =
            some ((asked s after).map Prod.snd, b) := by
  obtain ⟨replies, e, hrun, -, hsessions⟩ := Runs.exec_history
    (P := fun history (e : MatchingEngine k) => e.Valid pf ∧
      ∀ s b, e.books s = some b → Session pf s history b)
    (fun history e a ⟨hv, hold⟩ (_ : True) => by
      obtain ⟨reply, e', hcall, -, hv'⟩ := hv.call_spec a
      exact ⟨reply, e', hcall, hv', fun s => (hv.asks hcall s).sessions (hold s)⟩)
    calls [] { riskManager := rm } ⟨valid_initial rm, fun _ _ hb => (by cases hb)⟩ (by simp)
  exact ⟨replies, e, hrun, hsessions⟩

end MatchingEngine

end LightningLob
