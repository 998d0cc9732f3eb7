import LightningLob.Accounting

/-! # The trade tape

    The open quantity of every resting order can be recomputed from the tape of
    a run: take the last call that set it and subtract the trades since, that
    call's own included, that name the order. -/

namespace LightningLob

/-! ## Section 1: Reading a tape -/

/-- A call of a run with its reply. -/
abbrev Event : Type := (Call × Clock) × Reply

/-- The reply reports an order or an amend that was not rejected. -/
def Reply.accepted (reply : Reply) : Bool :=
  match reply.answer with
  | .report report => report.status ≠ .rejected
  | _ => false

/-- The open quantity an event sets for an id: that of an admitted order, or
    that of an accepted amend. -/
def openedBy (id : OrderId) : Event → Option Int
  | ((.add order, _), reply) =>
      if order.id = id ∧ reply.accepted then some order.quantity else none
  | ((.amend amended quantity _, _), reply) =>
      if amended = id ∧ reply.accepted then some quantity else none
  | _ => none

/-- The trades of a tape, in order. -/
def tapeTrades (tape : List Event) : List Trade := tape.flatMap fun e => e.2.trades

/-- The order's open quantity is what the last event that set it gave, less
    the trades that name the order from that event on. -/
def OnTape (tape : List Event) (o : Order) : Prop :=
  ∃ before e after quantity, tape = before ++ e :: after ∧ openedBy o.id e = some quantity ∧
    (∀ x ∈ after, openedBy o.id x = none) ∧
    o.remainingQuantity = quantity - namedVolume o.id (tapeTrades (e :: after))

section tapes

variable {tape : List Event} {e : Event} {o : Order}

theorem namedVolume_append (id : OrderId) (xs ys : List Trade) :
    namedVolume id (xs ++ ys) = namedVolume id xs + namedVolume id ys := by
  simp [namedVolume]

@[simp] theorem namedVolume_nil (id : OrderId) : namedVolume id [] = 0 := rfl

/-- The event that set the quantity is the last one. -/
theorem OnTape.set {quantity : Int} (hset : openedBy o.id e = some quantity)
    (hq : o.remainingQuantity = quantity - namedVolume o.id e.2.trades) :
    OnTape (tape ++ [e]) o :=
  ⟨tape, e, [], quantity, rfl, hset, by simp, by simpa [tapeTrades] using hq⟩

/-- An event that does not set the quantity takes its trades off. -/
theorem OnTape.later {o' : Order} (h : OnTape tape o) (hid : o'.id = o.id)
    (hset : openedBy o'.id e = none)
    (hq : o'.remainingQuantity = o.remainingQuantity - namedVolume o'.id e.2.trades) :
    OnTape (tape ++ [e]) o' := by
  obtain ⟨before, e₀, after, quantity, rfl, hset₀, hafter, hq₀⟩ := h
  rw [← hid] at hset₀ hafter hq₀
  refine ⟨before, e₀, after ++ [e], quantity, by simp, hset₀, ?_, ?_⟩
  · intro x hx
    rcases List.mem_append.mp hx with hx | hx
    · exact hafter x hx
    · rw [List.mem_singleton.mp hx]
      exact hset
  · have htrades : tapeTrades (e₀ :: (after ++ [e])) = tapeTrades (e₀ :: after) ++ e.2.trades := by
      simp [tapeTrades]
    rw [htrades, namedVolume_append, hq, hq₀]
    omega

end tapes

/-! ## Section 2: One event -/

namespace RefBook

section steps

variable {r r' : RefBook} {order : Order} {now : Clock}

/-- What an event does to the open quantities: each order resting after it has
    its quantity set by the event, or carried over, less the event's trades. -/
def Carried (r r' : RefBook) (e : Event) : Prop :=
  ∀ o' ∈ r'.all,
    (∃ quantity, openedBy o'.id e = some quantity ∧
      o'.remainingQuantity = quantity - namedVolume o'.id e.2.trades) ∨
    (openedBy o'.id e = none ∧ ∃ o ∈ r.all, o'.id = o.id ∧
      o'.remainingQuantity = o.remainingQuantity - namedVolume o'.id e.2.trades)

/-- An event without trades that sets nothing and adds no order. -/
theorem Carried.of_subset {c : Call} {answer : Answer}
    (hset : ∀ o ∈ r.all, openedBy o.id ((c, now), ⟨answer, []⟩) = none)
    (hsub : ∀ o ∈ r'.all, o ∈ r.all) : Carried r r' ((c, now), ⟨answer, []⟩) :=
  fun o ho => .inr ⟨hset o (hsub o ho), o, hsub o ho, rfl, by simp⟩

/-- An event that comes down to matching an order on a book `base`. -/
theorem Carried.of_execute {base : RefBook} (h : base.Sound True)
    (hopen : 0 ≤ order.remainingQuantity) (hfresh : ∀ o ∈ base.all, o.id ≠ order.id)
    (hsub : ∀ o ∈ base.all, o ∈ r.all) {a : Call × Clock} {answer : Answer} {now : Clock}
    (hset : openedBy order.id (a, ⟨answer, (base.execute order now).trades⟩) =
      some order.remainingQuantity)
    (hother : ∀ o ∈ base.all, openedBy o.id (a, ⟨answer, (base.execute order now).trades⟩) = none) :
    Carried r (base.execute order now).book (a, ⟨answer, (base.execute order now).trades⟩) := by
  intro o' ho'
  rcases h.execute_origin hopen hfresh ho' with ⟨rfl, -⟩ | ⟨o, ho, rfl⟩
  · exact .inl ⟨_, hset, rfl⟩
  · exact .inr ⟨hother o ho, o, hsub o ho, rfl, rfl⟩

theorem Sound.execute_positive (h : r.Sound True) {t : Trade}
    (ht : t ∈ (r.execute order now).trades) : 0 < t.quantity := by
  rw [execute_trades] at ht
  obtain ⟨f, hf, i, rfl⟩ := mem_tradesOf ht
  exact ((fold_folds _ _ _ _).fill_spec (fun m hm => ((h.makers order).1 m hm).2) hf).2.1

theorem Effect.positive {c : Call} {reply : Reply} (h : r.Effect c reply r') (hs : r.Sound True) :
    ∀ t ∈ reply.trades, 0 < t.quantity := by
  intro t ht
  cases h with
  | executed => exact hs.execute_positive ht
  | replaced => exact (hs.remove _).execute_positive ht
  | _ => cases ht

/-- **Step**: every call of a run with real ids carries the quantities over. -/
theorem Effect.carried {c : Call} {reply : Reply} (h : r.Effect c reply r') (hs : r.Sound True)
    (hc : c.NonZero) (now : Clock) : Carried r r' ((c, now), reply) := by
  cases h with
  | refused =>
    exact .of_subset (fun o _ => by simp [openedBy, Reply.accepted, ExecutionReport.reject])
      fun o ho => ho
  | killed hok =>
    -- a killed order was not rejected, but its id is no resting order's
    refine .of_subset (fun o ho => ?_) fun o ho => ho
    simp [openedBy, (fresh_of_accepted hok hc o ho).symm]
  | @executed order now' hok =>
    have hopen : 0 ≤ order.opened.remainingQuantity :=
      Int.le_of_lt (rejectReason_eq_none.mp hok).1
    have hfresh := fresh_of_accepted hok hc
    refine .of_execute hs hopen hfresh (fun o ho => ho) ?_ ?_
    · simp [openedBy, Reply.accepted, execute_status, Order.opened]
    · intro o ho
      simp [openedBy, (hfresh o ho).symm]
  | unknown => exact .of_subset (fun o _ => rfl) fun o ho => ho
  | cancelled => exact .of_subset (fun o _ => rfl) fun o ho => (mem_remove.mp ho).1
  | denied =>
    exact .of_subset (fun o _ => by simp [openedBy, Reply.accepted, ExecutionReport.reject])
      fun o ho => ho
  | @resized id quantity price o hfind hq _ =>
    intro o' ho'
    obtain ⟨side, ho'⟩ := mem_all.mp ho'
    obtain ⟨x, hx, rfl⟩ := List.mem_map.mp ho'
    -- the amended order has its quantity set, the others keep theirs
    by_cases hid : x.id = id
    · left
      refine ⟨quantity, ?_, ?_⟩
      · simp [hid, openedBy, Reply.accepted]
      · simp [hid]
    · right
      rw [if_neg hid]
      exact ⟨by simp [openedBy, Ne.symm hid], x, mem_all.mpr ⟨side, hx⟩, rfl, by simp⟩
  | @replaced id quantity price o now' timestamp hfind hok =>
    obtain ⟨hid, -, hoid⟩ := find_some hfind
    -- the replacement carries the amended id and its new quantity
    have hrid : (OrderBook.replacement o quantity price timestamp).id = id := hoid
    refine .of_execute (hs.remove id) (Int.le_of_lt (rejectReason_eq_none.mp hok).1)
      (fresh_of_accepted hok (by rw [hrid]; exact hid)) (fun x hx => (mem_remove.mp hx).1) ?_ ?_
    · simp [openedBy, Reply.accepted, execute_status, hoid, OrderBook.replacement]
    · intro x hx
      simp [openedBy, (mem_remove.mp hx).2.symm]
  | lost =>
    exact .of_subset (fun o _ => by simp [openedBy, Reply.accepted, ExecutionReport.reject])
      fun o ho => (mem_remove.mp ho).1
  | reset => exact fun o ho => by simp [mem_all, RefBook.reset] at ho

end steps

end RefBook

/-! ## Section 3: Whole runs -/

/-- **Conservation**: every run with real order ids from a new book returns,
    every trade on its tape has a positive quantity, and every order resting at
    its end has the positive open quantity the tape gives it.  This is said of
    the source while fewer than `2 ^ 32 - 1` orders rest. -/
theorem tape_conserves_quantities (pf : Platform) (k : Approach) (symbol : SymbolId)
    (minPrice maxPrice : Int) (hint : Nat) (stpPolicy : SelfTradePrevention) (b₀ : k.Book)
    (hb₀ : k.create pf symbol minPrice maxPrice hint stpPolicy = some b₀)
    (calls : List (Call × Clock)) (hcalls : ∀ a ∈ calls, a.1.NonZero) :
    ∃ replies b, Runs.exec (OrderBook.call pf) b₀ calls = some (replies, b) ∧
      (∀ t ∈ tapeTrades (calls.zip replies), 0 < t.quantity) ∧
      ∀ side, ∀ o ∈ b.resting side, 0 < o.remainingQuantity ∧ OnTape (calls.zip replies) o := by
  obtain ⟨hvalid₀, href₀⟩ := Approach.create_spec True hb₀
  obtain ⟨replies, b, hrun, hvalid, hpos, htape⟩ := Runs.exec_history
    (P := fun tape (b : k.Book) => b.Valid pf True ∧ (∀ t ∈ tapeTrades tape, 0 < t.quantity) ∧
      ∀ o ∈ b.reference.all, OnTape tape o)
    (fun tape b a ⟨hvalid, hpos, htape⟩ (hc : a.1.NonZero) => by
      -- the invariant: valid, positive trades, and every resting order on the tape
      obtain ⟨b', hrun, hvalid', href⟩ := hvalid.call_spec a.1 a.2 fun _ => hc
      have heffect := RefBook.call_effect pf hvalid.sound a.1 a.2
      refine ⟨_, b', hrun, hvalid', ?_, ?_⟩
      · intro t ht
        rw [tapeTrades, List.flatMap_append] at ht
        rcases List.mem_append.mp ht with ht | ht
        · exact hpos t ht
        · exact heffect.positive hvalid.sound t (by simpa using ht)
      · intro o' ho'
        rw [href] at ho'
        rcases heffect.carried hvalid.sound hc a.2 o' ho' with
          ⟨quantity, hset, hq⟩ | ⟨hset, o, ho, hid, hq⟩
        · exact .set hset hq
        · exact (htape o ho).later hid hset hq)
    calls [] b₀ ⟨hvalid₀, fun t ht => (by cases ht), by rw [href₀]; intro o ho; cases ho⟩ hcalls
  refine ⟨replies, b, hrun, hpos, fun side o ho => ⟨?_, ?_⟩⟩
  · exact (hvalid.sound.placed side o ho).open_pos
  · exact htape o (RefBook.mem_all.mpr ⟨side, ho⟩)

/-- An ask is partly filled, amended up, and partly filled again by a bid that
    an amend makes cross. -/
theorem tape_conserves_quantities_amended :
    ∃ (calls : List (Call × Clock)) (replies : List Reply) (b : Approach.map.Book),
      Approach.map.session .int64 1 90 110 4 .none calls = some (replies, b) ∧
      b.resting .sell = [⟨1, 100, 9, 6, 0, 1, 7, .sell, .limit, .gtc⟩] ∧
      ∀ side, ∀ o ∈ b.resting side, 0 < o.remainingQuantity ∧ OnTape (calls.zip replies) o := by
  let calls : List (Call × Clock) :=
    [(.add ⟨1, 100, 5, 0, 0, 1, 7, .sell, .limit, .gtc⟩, fun _ => 0),
     (.add ⟨2, 100, 2, 0, 0, 1, 8, .buy, .limit, .ioc⟩, fun _ => 0),
     (.amend 1 9 none, fun _ => 0),
     (.add ⟨3, 95, 3, 0, 0, 1, 8, .buy, .limit, .gtc⟩, fun _ => 0),
     (.amend 3 3 (some 100), fun _ => 0)]
  obtain ⟨replies, b, hrun, hsell⟩ := Approach.session_ends
    (P := fun b => b.resting .sell = [⟨1, 100, 9, 6, 0, 1, 7, .sell, .limit, .gtc⟩])
    (show ((Approach.map.session .int64 1 90 110 4 .none calls).any _) = true by decide +kernel)
  obtain ⟨b₀, hb₀, hexec⟩ := Approach.session_eq_some.mp hrun
  obtain ⟨replies', b', hexec', -, htape⟩ :=
    tape_conserves_quantities .int64 .map 1 90 110 4 .none b₀ hb₀ calls (by decide)
  rw [hexec] at hexec'
  obtain ⟨rfl, rfl⟩ := Prod.mk.inj (Option.some.inj hexec')
  exact ⟨calls, replies, b, hrun, hsell, htape⟩

end LightningLob
