import LightningLob.Lib.Isolation
import LightningLob.Positions

/-! # Symbols are isolated

    All symbols of an engine share one risk manager, whose entries are looked
    up by a packed key and written by the trades of every book.  A call that
    brings its own order id still reads and writes the part of the engine at
    its symbol only: the symbol's book, and the entries of the symbol's pairs.
    Only the counter for orders without an id is common to the symbols. -/

namespace LightningLob

/-! ## Section 1: The part of a symbol -/

/-- The symbol a call addresses. -/
def EngineCall.symbol : EngineCall → SymbolId
  | .addSymbol symbol _ _ _ _ => symbol.toNat
  | .submit request => request.symbol.toNat
  | .cancel symbol _ => symbol.toNat
  | .amend symbol _ _ _ => symbol.toNat
  | .resetSymbol symbol => symbol.toNat
  | .setRiskLimits symbol _ _ => symbol.toNat

/-- The call does not draw on the id counter. -/
def EngineCall.BringsId : EngineCall → Prop
  | .submit request => request.clientOrderId ≠ 0
  | _ => True

instance : DecidablePred EngineCall.BringsId := fun c => by
  unfold EngineCall.BringsId
  split <;> infer_instance

/-- The risk entries of a symbol. -/
def RiskManager.ofSymbol (rm : RiskManager) (symbol : SymbolId) :
    UInt32 → Option SymbolParticipantState :=
  fun participant => rm.state (packKey symbol participant.toNat)

/-- The part of an engine at a symbol, with the counter that all share. -/
structure SymbolPart (k : Approach) where
  book : Option k.Book
  risk : UInt32 → Option SymbolParticipantState
  nextOrderId : UInt64

def MatchingEngine.part {k : Approach} (symbol : SymbolId) (e : MatchingEngine k) :
    SymbolPart k :=
  ⟨e.books symbol, e.riskManager.ofSymbol symbol, e.nextOrderId⟩

/-- The parts make up the engine. -/
theorem MatchingEngine.eq_of_parts {k : Approach} {e f : MatchingEngine k}
    (h : ∀ s, e.part s = f.part s) : e = f := by
  have hbooks : e.books = f.books := funext fun s => congrArg SymbolPart.book (h s)
  have hnext : e.nextOrderId = f.nextOrderId := congrArg SymbolPart.nextOrderId (h 0)
  have hstate : e.riskManager.state = f.riskManager.state := by
    funext key
    -- every 64-bit key is the key of a pair
    have hlow : key % 2 ^ 32 < 2 ^ 32 := Nat.mod_lt _ (by decide)
    have hkey : packKey (key / 2 ^ 32) (UInt32.ofNat (key % 2 ^ 32)).toNat = key := by
      rw [UInt32.toNat_ofNat_of_lt' hlow, packKey, ← Nat.shiftLeft_add_eq_or_of_lt hlow,
        Nat.shiftLeft_eq]
      exact Nat.div_add_mod' key (2 ^ 32)
    rw [← hkey]
    exact congrFun (congrArg SymbolPart.risk (h (key / 2 ^ 32))) (UInt32.ofNat (key % 2 ^ 32))
  obtain ⟨books, rm, n⟩ := e
  obtain ⟨books', rm', n'⟩ := f
  obtain ⟨state⟩ := rm
  obtain ⟨state'⟩ := rm'
  simp only at hbooks hnext hstate
  rw [hbooks, hnext, hstate]

/-! ## Section 2: Risk operations on one symbol -/

namespace RiskManager

/-- The operation reads and writes entries of the symbol only. -/
structure OnSymbol (s : SymbolId) (f : RiskManager → RiskManager) : Prop where
  own : ∀ rm rm', rm'.ofSymbol s = rm.ofSymbol s → (f rm').ofSymbol s = (f rm).ofSymbol s
  frame : ∀ rm t, t ≠ s → (f rm).ofSymbol t = rm.ofSymbol t

variable {s p : Nat} {f g : RiskManager → RiskManager}

theorem OnSymbol.comp (hf : OnSymbol s f) (hg : OnSymbol s g) : OnSymbol s fun rm => g (f rm) :=
  ⟨fun rm rm' h => hg.own _ _ (hf.own rm rm' h),
    fun rm t ht => (hg.frame _ t ht).trans (hf.frame rm t ht)⟩

/-- The entry of a pair is one of its symbol's. -/
theorem state_of_ofSymbol {rm rm' : RiskManager} (h : rm'.ofSymbol s = rm.ofSymbol s)
    (hp : p < 2 ^ 32) : rm'.state (packKey s p) = rm.state (packKey s p) := by
  have hentry := congrFun h (UInt32.ofNat p)
  simpa only [ofSymbol, UInt32.toNat_ofNat_of_lt' hp] using hentry

theorem store_own {rm rm' : RiskManager} (h : rm'.ofSymbol s = rm.ofSymbol s)
    (st : SymbolParticipantState) :
    (rm'.store s p st).ofSymbol s = (rm.store s p st).ofSymbol s := by
  funext q
  have hq : rm'.state (packKey s q.toNat) = rm.state (packKey s q.toNat) := congrFun h q
  simp only [ofSymbol, store, Function.update_apply, hq]

theorem store_frame (rm : RiskManager) (hp : p < 2 ^ 32) {t : Nat} (ht : t ≠ s)
    (st : SymbolParticipantState) : (rm.store s p st).ofSymbol t = rm.ofSymbol t :=
  funext fun q => store_state_of_ne hp q.toNat_lt fun h => ht h.1

/-- Every write through `state_[key]` is one on the symbol of the key. -/
theorem onSymbol_store (hp : p < 2 ^ 32) (g : SymbolParticipantState → SymbolParticipantState) :
    OnSymbol s fun rm => rm.store s p (g (rm.entry s p)) := by
  refine ⟨fun rm rm' h => ?_, fun rm t ht => store_frame rm hp ht _⟩
  have hentry : rm'.entry s p = rm.entry s p := by
    unfold entry
    rw [state_of_ofSymbol h hp]
  simp only [hentry]
  exact store_own h _

theorem onSymbol_setLimits (hp : p < 2 ^ 32) (limits : SymbolRiskLimits) :
    OnSymbol s fun rm => rm.setLimits s p limits :=
  onSymbol_store hp fun st => { st with limits := limits }

theorem onSymbol_onFill (pf : Platform) (hp : p < 2 ^ 32) (side : Side) (quantity : Int) :
    OnSymbol s fun rm => rm.onFill pf s p side quantity :=
  onSymbol_store hp fun st =>
    { st with netPosition := pf.wrap (st.netPosition + signedQuantity pf side quantity) }

/-- A check answers from an entry of its symbol, whether or not there is one. -/
theorem checkNewOrder_own (pf : Platform) {rm rm' : RiskManager}
    (h : rm'.ofSymbol s = rm.ofSymbol s) (hp : p < 2 ^ 32) (side : Side) (quantity : Int)
    (now : Timestamp) :
    (rm'.checkNewOrder pf s p side quantity now).1 =
        (rm.checkNewOrder pf s p side quantity now).1 ∧
      (rm'.checkNewOrder pf s p side quantity now).2.ofSymbol s =
        (rm.checkNewOrder pf s p side quantity now).2.ofSymbol s := by
  unfold checkNewOrder
  rw [state_of_ofSymbol h hp]
  cases rm.state (packKey s p) with
  | none => exact ⟨rfl, h⟩
  | some st => exact ⟨rfl, store_own h _⟩

theorem checkNewOrder_frame (pf : Platform) (rm : RiskManager) (hp : p < 2 ^ 32) (side : Side)
    (quantity : Int) (now : Timestamp) {t : Nat} (ht : t ≠ s) :
    (rm.checkNewOrder pf s p side quantity now).2.ofSymbol t = rm.ofSymbol t := by
  unfold checkNewOrder
  cases rm.state (packKey s p) with
  | none => rfl
  | some st => exact store_frame rm hp ht _

end RiskManager

/-- The trade is one of the symbol, between 32-bit participants. -/
structure Trade.OnSymbol (s : SymbolId) (t : Trade) : Prop where
  symbol_eq : t.symbol = s
  taker_lt : t.takerParticipantId < 2 ^ 32
  maker_lt : t.makerParticipantId < 2 ^ 32

/-- The trades of a book, as `on_trade` credits them. -/
theorem RiskManager.onSymbol_onTrades (pf : Platform) {s : SymbolId} {ts : List Trade}
    (h : ∀ t ∈ ts, t.OnSymbol s) : OnSymbol s fun rm => ts.foldl (onTrade pf) rm := by
  induction ts with
  | nil => exact ⟨fun _ _ h => h, fun _ _ _ => rfl⟩
  | cons t ts ih =>
    obtain ⟨rfl, htaker, hmaker⟩ := h t (by simp)
    have hlegs := (onSymbol_onFill (s := t.symbol) pf htaker t.takerSide t.quantity).comp
      (onSymbol_onFill (s := t.symbol) pf hmaker t.takerSide.opposite t.quantity)
    exact hlegs.comp (ih fun u hu => h u (by simp [hu]))

/-! ## Section 3: Engine calls on one symbol -/

namespace MatchingEngine

variable {k : Approach} {pf : Platform} {e e' f : MatchingEngine k} {a : EngineCall × Clock}
  {reply : Reply}

/-- The engine is valid and its resting orders were submitted to it. -/
structure Attributed (pf : Platform) (e : MatchingEngine k) : Prop where
  valid : e.Valid pf
  resting : ∃ tape, RestingSubmitted e tape

theorem Attributed.initial (pf : Platform) (k : Approach) (rm : RiskManager) :
    Attributed pf ({ riskManager := rm } : MatchingEngine k) :=
  ⟨valid_initial rm, [], fun _ _ hb => by cases hb⟩

theorem Forwards.symbol_eq {symbol : SymbolId} {c : Call × Clock} {rm : RiskManager} {n : UInt64}
    (h : Forwards pf e a symbol c rm n) : a.1.symbol = symbol := by
  cases h <;> rfl

/-- The trades of a call are trades of its symbol. -/
theorem Attributed.trades (h : e.Attributed pf) (heffect : e.Effect pf a reply e') :
    ∀ t ∈ reply.trades, t.OnSymbol a.1.symbol := by
  obtain ⟨hv, tape, hrest⟩ := h
  intro t ht
  obtain ⟨-, htaker, hmaker⟩ := hrest.trade hv heffect ht
  refine ⟨?_, htaker.participant_lt, hmaker.participant_lt⟩
  cases heffect with
  | idle | limited | refused | registered => cases ht
  | booked hbook hforward _ =>
    obtain ⟨hvalid, hsym⟩ := hv _ _ hbook
    have hby := (RefBook.call_effect pf hvalid.sound _ _).tradedBy hvalid.sound ht
    exact hby.symbol_eq.trans (hsym.trans hforward.symbol_eq.symm)

/-- **Step**: every call returns and leaves an attributed engine; its trades
    are trades of its symbol. -/
theorem Attributed.call (h : e.Attributed pf) (a : EngineCall × Clock) :
    ∃ reply e', e.call pf a = some (reply, e') ∧ e'.Attributed pf ∧ e.Effect pf a reply e' ∧
      ∀ t ∈ reply.trades, t.OnSymbol a.1.symbol := by
  obtain ⟨reply, e', hcall, heffect, hv'⟩ := h.valid.call_spec a
  obtain ⟨tape, hrest⟩ := h.resting
  exact ⟨reply, e', hcall, ⟨hv', _, hrest.step h.valid heffect⟩, heffect, h.trades heffect⟩

/-- No part but that of the symbol changes. -/
theorem Effect.frame (h : e.Effect pf a reply e') (hid : a.1.BringsId)
    (htrades : ∀ t ∈ reply.trades, t.OnSymbol a.1.symbol) {s : SymbolId} (hs : s ≠ a.1.symbol) :
    e'.part s = e.part s := by
  cases h with
  | idle => rfl
  | registered hnone hb =>
    exact SymbolPart.mk.injEq .. ▸ ⟨Function.update_of_ne hs _ _, rfl, rfl⟩
  | @limited symbol participant limits now =>
    exact SymbolPart.mk.injEq .. ▸ ⟨rfl,
      (RiskManager.onSymbol_setLimits participant.toNat_lt limits).frame _ s hs, rfl⟩
  | @refused request now reason rm b hbook hcheck hreason =>
    have hframe := e.riskManager.checkNewOrder_frame (s := request.symbol.toNat) pf
      request.participantId.toNat_lt request.side request.quantity (now 0) hs
    rw [hcheck] at hframe
    exact SymbolPart.mk.injEq .. ▸ ⟨rfl, hframe, congrArg Prod.snd (if_pos hid)⟩
  | @booked a symbol c rm n b b' hbook hforward _ =>
    have hcredit := (RiskManager.onSymbol_onTrades pf htrades).frame rm s hs
    rw [hforward.symbol_eq] at hs
    have hbooks : Function.update e.books symbol (some b') s = e.books s :=
      Function.update_of_ne hs _ _
    -- on its way to the book a call may have been checked
    cases hforward with
    | @submit request now rm hcheck =>
      have hframe := e.riskManager.checkNewOrder_frame pf request.participantId.toNat_lt
        request.side request.quantity (now 0) hs
      rw [hcheck] at hframe
      exact SymbolPart.mk.injEq .. ▸ ⟨hbooks, hcredit.trans hframe, congrArg Prod.snd (if_pos hid)⟩
    | cancel | amend | reset => exact SymbolPart.mk.injEq .. ▸ ⟨hbooks, hcredit, rfl⟩

/-- A book call is decided by the part of its symbol. -/
theorem onBook_own {s : SymbolId} {b : k.Book} {c : Call} {now : Clock}
    (hpart : f.part s = e.part s) (hrun : e.onBook pf s b c now = some (reply, e'))
    (htrades : ∀ t ∈ reply.trades, t.OnSymbol s) :
    ∃ f', f.onBook pf s b c now = some (reply, f') ∧ f'.part s = e'.part s := by
  obtain ⟨⟨w, b'⟩, hb, heq⟩ := Option.bind_eq_some_iff.mp hrun
  obtain ⟨rfl, rfl⟩ := Prod.mk.inj (Option.some.inj heq)
  refine ⟨_, by simp only [onBook, hb]; rfl, ?_⟩
  obtain ⟨-, hrisk, hnext⟩ := SymbolPart.mk.inj hpart
  refine SymbolPart.mk.injEq .. ▸ ⟨by simp, ?_, hnext⟩
  exact (RiskManager.onSymbol_onTrades pf htrades).own _ _ hrisk

/-- A call that goes to the book of its symbol, if there is one. -/
theorem routed_own {s : SymbolId} {c : Call} {now : Clock} {answer : Answer}
    (hpart : f.part s = e.part s)
    (hrun : (match e.books s with
      | none => pure (⟨answer, []⟩, e)
      | some b => e.onBook pf s b c now : Run (Reply × MatchingEngine k)) = some (reply, e'))
    (htrades : ∀ t ∈ reply.trades, t.OnSymbol s) :
    ∃ f', (match f.books s with
      | none => pure (⟨answer, []⟩, f)
      | some b => f.onBook pf s b c now : Run (Reply × MatchingEngine k)) = some (reply, f') ∧
      f'.part s = e'.part s := by
  have hbooks : f.books s = e.books s := congrArg SymbolPart.book hpart
  rw [hbooks]
  cases hb : e.books s with
  | none =>
    rw [hb] at hrun
    obtain ⟨rfl, rfl⟩ := Prod.mk.inj (Option.some.inj hrun)
    exact ⟨f, rfl, hpart⟩
  | some b =>
    rw [hb] at hrun
    exact onBook_own hpart hrun htrades

/-- A submitted order with an id of its own is decided by the part of its
    symbol. -/
theorem submitOrder_own {request : OrderRequest} {now : Clock}
    (hpart : f.part request.symbol.toNat = e.part request.symbol.toNat)
    (hid : request.clientOrderId ≠ 0) (hrun : e.submitOrder pf request now = some (reply, e'))
    (htrades : ∀ t ∈ reply.trades, t.OnSymbol request.symbol.toNat) :
    ∃ f', f.submitOrder pf request now = some (reply, f') ∧
      f'.part request.symbol.toNat = e'.part request.symbol.toNat := by
  obtain ⟨hbooks, hrisk, hnext⟩ := SymbolPart.mk.inj hpart
  obtain ⟨hreason, hrm⟩ := RiskManager.checkNewOrder_own pf hrisk
    request.participantId.toNat_lt request.side request.quantity (now 0)
  have hassign : ∀ x : MatchingEngine k,
      x.assignId request = (request.clientOrderId, x.nextOrderId) :=
    fun x => if_pos hid
  unfold submitOrder at hrun ⊢
  rw [hbooks]
  cases hb : e.books request.symbol.toNat with
  | none =>
    simp only [hb] at hrun ⊢
    obtain ⟨rfl, rfl⟩ := Prod.mk.inj (Option.some.inj hrun)
    exact ⟨f, rfl, hpart⟩
  | some b =>
    simp only [hb, hassign, hreason] at hrun ⊢
    have hchecked : MatchingEngine.part request.symbol.toNat
        ({ f with riskManager := (f.riskManager.checkNewOrder pf request.symbol.toNat
            request.participantId.toNat request.side request.quantity (now 0)).2 } :
          MatchingEngine k) =
        MatchingEngine.part request.symbol.toNat
        { e with riskManager := (e.riskManager.checkNewOrder pf request.symbol.toNat
            request.participantId.toNat request.side request.quantity (now 0)).2 } :=
      SymbolPart.mk.injEq .. ▸ ⟨hbooks, hrm, hnext⟩
    split at hrun
    · next hne =>
      rw [if_pos hne]
      obtain ⟨rfl, rfl⟩ := Prod.mk.inj (Option.some.inj hrun)
      exact ⟨_, rfl, hchecked⟩
    · next hne =>
      rw [if_neg hne]
      exact onBook_own hchecked hrun htrades

/-- A call with an id of its own is decided by the part of its symbol. -/
theorem call_own (hpart : f.part a.1.symbol = e.part a.1.symbol) (hid : a.1.BringsId)
    (hrun : e.call pf a = some (reply, e')) (htrades : ∀ t ∈ reply.trades, t.OnSymbol a.1.symbol) :
    ∃ f', f.call pf a = some (reply, f') ∧ f'.part a.1.symbol = e'.part a.1.symbol := by
  obtain ⟨hbooks, hrisk, hnext⟩ := SymbolPart.mk.inj hpart
  obtain ⟨c, now⟩ := a
  cases c with
  | submit request => exact submitOrder_own hpart hid hrun htrades
  | setRiskLimits symbol participant limits =>
    obtain ⟨rfl, rfl⟩ := Prod.mk.inj (Option.some.inj hrun)
    refine ⟨_, rfl, SymbolPart.mk.injEq .. ▸ ⟨hbooks, ?_, hnext⟩⟩
    exact (RiskManager.onSymbol_setLimits participant.toNat_lt limits).own _ _ hrisk
  | addSymbol symbol minPrice maxPrice hint policy =>
    obtain ⟨rfl, rfl⟩ := Prod.mk.inj (Option.some.inj hrun)
    have hbooks' : f.books symbol.toNat = e.books symbol.toNat := hbooks
    refine ⟨_, rfl, ?_⟩
    unfold addSymbol
    rw [hbooks']
    cases e.books symbol.toNat with
    | some b => exact hpart
    | none =>
      cases k.create pf symbol.toNat minPrice maxPrice hint policy with
      | none => exact hpart
      | some b => exact SymbolPart.mk.injEq .. ▸ ⟨by simp [EngineCall.symbol], hrisk, hnext⟩
  | cancel symbol id => exact routed_own hpart hrun htrades
  | amend symbol id newQuantity newPrice => exact routed_own hpart hrun htrades
  | resetSymbol symbol => exact routed_own hpart hrun htrades

/-- **Isolation**: calls that bring their ids own the part of their symbol. -/
theorem isolated (pf : Platform) (k : Approach) :
    Runs.Isolated (MatchingEngine.call (k := k) pf) (Attributed pf) (fun a => a.1.BringsId)
      (fun a => a.1.symbol) part where
  answers := fun e a h _ => by
    obtain ⟨reply, e', hcall, h', -, -⟩ := h.call a
    exact ⟨reply, e', hcall, h'⟩
  own := fun e f a reply e' h hid hcall hpart => by
    obtain ⟨reply', e'', hcall', -, -, htrades⟩ := h.call a
    obtain ⟨rfl, rfl⟩ := Prod.mk.inj (Option.some.inj (hcall.symm.trans hcall'))
    exact call_own hpart hid hcall htrades
  frame := fun e a reply e' h hid hcall s hs => by
    obtain ⟨reply', e'', hcall', -, heffect, htrades⟩ := h.call a
    obtain ⟨rfl, rfl⟩ := Prod.mk.inj (Option.some.inj (hcall.symm.trans hcall'))
    exact heffect.frame hid htrades hs

end MatchingEngine

/-! ## Section 4: Runs -/

/-- The trades of a symbol are those of the calls on it. -/
theorem engineTrades_filter {tape : List EngineEvent}
    (h : ∀ x ∈ tape, ∀ t ∈ x.2.trades, t.symbol = x.1.1.symbol) (s : SymbolId) :
    (engineTrades tape).filter (fun t => t.symbol = s) =
      ((tape.filter fun x => x.1.1.symbol = s).map Prod.snd).flatMap Reply.trades := by
  induction tape with
  | nil => rfl
  | cons x tape ih =>
    have hx := h x (by simp)
    have htail := ih fun y hy => h y (by simp [hy])
    unfold engineTrades at htail ⊢
    rw [List.flatMap_cons, List.filter_append, htail]
    by_cases hs : x.1.1.symbol = s
    · have hall : x.2.trades.filter (fun t => t.symbol = s) = x.2.trades :=
        List.filter_eq_self.mpr fun t ht => by simpa using (hx t ht).trans hs
      rw [hall, List.filter_cons_of_pos (by simpa using hs), List.map_cons, List.flatMap_cons]
    · have hnone : x.2.trades.filter (fun t => t.symbol = s) = [] :=
        List.filter_eq_nil_iff.mpr fun t ht => by simpa [hx t ht] using hs
      rw [hnone, List.nil_append, List.filter_cons_of_neg (by simpa using hs)]

/-- Every call of a run trades on its own symbol. -/
theorem MatchingEngine.Attributed.exec {pf : Platform} {k : Approach} {e : MatchingEngine k}
    (h : e.Attributed pf) (calls : List (EngineCall × Clock)) :
    ∃ replies e', Runs.exec (MatchingEngine.call pf) e calls = some (replies, e') ∧
      e'.Attributed pf ∧ ∀ x ∈ calls.zip replies, ∀ t ∈ x.2.trades, t.symbol = x.1.1.symbol := by
  have hstep : ∀ (tape : List EngineEvent) (e : MatchingEngine k) (a : EngineCall × Clock),
      (e.Attributed pf ∧ ∀ x ∈ tape, ∀ t ∈ x.2.trades, t.symbol = x.1.1.symbol) → True →
      ∃ reply e', e.call pf a = some (reply, e') ∧ e'.Attributed pf ∧
        ∀ x ∈ tape ++ [(a, reply)], ∀ t ∈ x.2.trades, t.symbol = x.1.1.symbol := by
    rintro tape e a ⟨h, htape⟩ -
    obtain ⟨reply, e', hcall, h', -, htrades⟩ := h.call a
    refine ⟨reply, e', hcall, h', fun x hx t ht => ?_⟩
    rcases List.mem_append.mp hx with hx | hx
    · exact htape x hx t ht
    · obtain rfl := List.mem_singleton.mp hx
      exact (htrades t ht).symbol_eq
  obtain ⟨replies, e', hrun, h', htape⟩ := Runs.exec_history hstep calls [] e ⟨h, by simp⟩ (by simp)
  exact ⟨replies, e', hrun, h', by simpa using htape⟩

/-- **Symbols are isolated**: from every engine a run has reached, two calls on
    different symbols give the same replies and the same engine in either
    order, and for every run that follows, the replies, the trades, the book and
    the risk entries of a symbol are those of the calls on that symbol alone. -/
theorem symbols_are_isolated (pf : Platform) (k : Approach) (rm : RiskManager)
    (before : List (EngineCall × Clock)) :
    ∃ replies e, Runs.exec (MatchingEngine.call pf) ({ riskManager := rm } : MatchingEngine k)
        before = some (replies, e) ∧
      (∀ a b : EngineCall × Clock, a.1.BringsId → b.1.BringsId → a.1.symbol ≠ b.1.symbol →
        ∃ ra rb e', Runs.exec (MatchingEngine.call pf) e [a, b] = some ([ra, rb], e') ∧
          Runs.exec (MatchingEngine.call pf) e [b, a] = some ([rb, ra], e') ∧
          ∀ s, (engineTrades [(a, ra), (b, rb)]).filter (fun t => t.symbol = s) =
            (engineTrades [(b, rb), (a, ra)]).filter fun t => t.symbol = s) ∧
      ∀ calls : List (EngineCall × Clock), (∀ a ∈ calls, a.1.BringsId) → ∀ s : SymbolId,
        ∃ ws e₁ vs e₂, Runs.exec (MatchingEngine.call pf) e calls = some (ws, e₁) ∧
          Runs.exec (MatchingEngine.call pf) e (calls.filter fun a => a.1.symbol = s) =
            some (vs, e₂) ∧
          ((calls.zip ws).filter fun x => x.1.1.symbol = s).map Prod.snd = vs ∧
          (engineTrades (calls.zip ws)).filter (fun t => t.symbol = s) =
            vs.flatMap Reply.trades ∧
          e₁.books s = e₂.books s ∧
          ∀ p : UInt32, e₁.riskManager.state (packKey s p.toNat) =
            e₂.riskManager.state (packKey s p.toNat) := by
  obtain ⟨replies, e, hrun, hattr, -⟩ := (MatchingEngine.Attributed.initial pf k rm).exec before
  have hiso := MatchingEngine.isolated pf k
  refine ⟨replies, e, hrun, ?_, ?_⟩
  · intro a b ha hb hne
    obtain ⟨ra, rb, e₁, e₂, hab, hba, hparts⟩ := hiso.commute hattr ha hb hne
    obtain rfl := MatchingEngine.eq_of_parts hparts
    refine ⟨ra, rb, e₁, hab, hba, fun s => ?_⟩
    obtain ⟨_, _, hab', -, htape⟩ := hattr.exec [a, b]
    obtain ⟨rfl, -⟩ := Prod.mk.inj (Option.some.inj (hab.symm.trans hab'))
    -- at most one of the two calls is on the symbol
    have hswap : ∀ x ∈ [(b, rb), (a, ra)], ∀ t ∈ x.2.trades, t.symbol = x.1.1.symbol :=
      fun x hx => htape x (by simpa [or_comm] using hx)
    rw [show [(a, ra), (b, rb)] = [a, b].zip [ra, rb] from rfl, engineTrades_filter htape,
      engineTrades_filter hswap]
    by_cases has : a.1.symbol = s
    · have hbs : ¬ b.1.symbol = s := fun h => hne (has.trans h.symm)
      simp [has, hbs]
    · by_cases hbs : b.1.symbol = s <;> simp [has, hbs]
  · intro calls hids s
    obtain ⟨ws, e₁, vs, e₂, hws, hvs, hreplies, hpart⟩ :=
      hiso.exec_filter s calls e e hattr hids rfl
    obtain ⟨_, _, hws', -, htape⟩ := hattr.exec calls
    obtain ⟨rfl, rfl⟩ := Prod.mk.inj (Option.some.inj (hws.symm.trans hws'))
    refine ⟨ws, e₁, vs, e₂, hws, hvs, hreplies, ?_, ?_, ?_⟩
    · rw [engineTrades_filter htape, hreplies]
    · exact (congrArg SymbolPart.book hpart).symm
    · exact fun p => (congrFun (congrArg SymbolPart.risk hpart) p).symm

/-- Participant 7 has orders resting on two symbols. -/
def twoSymbols : List (EngineCall × Clock) :=
  [(.addSymbol 1 90 110 4 .none, fun _ => 0), (.addSymbol 2 90 110 4 .none, fun _ => 0),
   (.submit ⟨1, 1, 7, .sell, .limit, 100, 5, .gtc⟩, fun _ => 0),
   (.submit ⟨1, 2, 7, .sell, .limit, 101, 5, .gtc⟩, fun _ => 0)]

/-- Participant 8 trades with both, and the first trade of each symbol creates
    its risk entries. -/
theorem symbols_are_isolated_two_trades :
    ∃ replies e ra rb e', Runs.exec (MatchingEngine.call .int64) ({} : MatchingEngine .array)
        twoSymbols = some (replies, e) ∧
      Runs.exec (MatchingEngine.call .int64) e
        [(.submit ⟨2, 1, 8, .buy, .limit, 100, 3, .gtc⟩, fun _ => 1),
         (.submit ⟨2, 2, 8, .buy, .limit, 101, 4, .gtc⟩, fun _ => 2)] = some ([ra, rb], e') ∧
      Runs.exec (MatchingEngine.call .int64) e
        [(.submit ⟨2, 2, 8, .buy, .limit, 101, 4, .gtc⟩, fun _ => 2),
         (.submit ⟨2, 1, 8, .buy, .limit, 100, 3, .gtc⟩, fun _ => 1)] = some ([rb, ra], e') := by
  obtain ⟨replies, e, hrun, hcommute, -⟩ := symbols_are_isolated .int64 .array {} twoSymbols
  obtain ⟨ra, rb, e', hab, hba, -⟩ := hcommute
    (.submit ⟨2, 1, 8, .buy, .limit, 100, 3, .gtc⟩, fun _ => 1)
    (.submit ⟨2, 2, 8, .buy, .limit, 101, 4, .gtc⟩, fun _ => 2) (by decide) (by decide) (by decide)
  exact ⟨replies, e, ra, rb, e', hrun, hab, hba⟩

end LightningLob
