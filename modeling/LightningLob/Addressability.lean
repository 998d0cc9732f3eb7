import LightningLob.Accounting
import LightningLob.FillOrKill

/-! # Resting orders without an id

    `add_order` lets id zero past its duplicate check, but the id index uses
    zero for its empty slots: an order with that id can rest and then be
    neither found nor erased.  Every other order that rests can be cancelled
    by its id, and without such orders the index counts the book. -/

namespace LightningLob

/-! ## Section 1: Which orders rest -/

/-- A fold that does not exhaust the taker is killed exactly when the policy
    cancels incoming orders and it meets an order of its own. -/
theorem Folds.killed_iff {policy : SelfTradePrevention} {taker : Order} {rem : Int}
    {makers : List Order} {r : Fold} (h : Folds policy taker rem makers r)
    (hleft : 0 < r.remaining) :
    r.killed = true ↔ (policy = .cancelIncoming ∨ policy = .cancelBoth) ∧
      ∃ m ∈ makers, selfTrade policy taker m = true := by
  induction h with
  | nil => simp
  | spent hrem => exact absurd hleft (Int.not_lt.mpr hrem)
  | skip _ _ hpol _ ih =>
    refine (ih hleft).trans ?_
    simp [hpol]
  | stop _ hself hpol => simp [hpol, hpol ▸ hself]
  | both _ hself hpol => simp [hpol, hpol ▸ hself]
  | fill _ hself _ _ ih =>
    refine (ih hleft).trans ?_
    simp [hself]
  | part => exact absurd hleft (Int.lt_irrefl 0)

/-- The order outlasts the makers it can reach: it is a GTC Limit order, they
    have less open for it than it asks, and it meets no order of its own under
    a policy that would cancel it. -/
structure RefBook.Outlasts (r : RefBook) (order : Order) : Prop where
  rests : order.restsInBook = true
  unfilled : quantityOf (tradable r.policy order
    (reachable order (r.orders order.side.opposite))) < order.quantity
  survives : r.policy = .cancelIncoming ∨ r.policy = .cancelBoth →
    ∀ m ∈ reachable order (r.orders order.side.opposite), selfTrade r.policy order m = false

instance (r : RefBook) (order : Order) : Decidable (r.Outlasts order) :=
  decidable_of_iff (order.restsInBook = true ∧
      quantityOf (tradable r.policy order (reachable order (r.orders order.side.opposite))) <
        order.quantity ∧
      (r.policy = .cancelIncoming ∨ r.policy = .cancelBoth →
        ∀ m ∈ reachable order (r.orders order.side.opposite),
          selfTrade r.policy order m = false))
    ⟨fun ⟨h₁, h₂, h₃⟩ => ⟨h₁, h₂, h₃⟩, fun ⟨h₁, h₂, h₃⟩ => ⟨h₁, h₂, h₃⟩⟩

/-- Those are the orders that join the book. -/
theorem RefBook.Sound.joins_iff {nz : Prop} {r : RefBook} (h : r.Sound nz) {order : Order}
    (hq : 0 < order.quantity) : r.Joins order.opened ↔ r.Outlasts order := by
  have hfold := fold_folds r.policy order order.quantity
    (reachable order (r.orders order.side.opposite))
  have hfilled := hfold.filled_iff (fun m hm => (h.maker_open hm).2) (Int.le_of_lt hq)
  have hrem := hfold.remaining_nonneg (Int.le_of_lt hq)
  unfold Joins
  rw [matched_opened]
  constructor
  · rintro ⟨hleft, hkilled, hrests⟩
    refine ⟨hrests, ?_, ?_⟩
    · omega
    · intro hpol m hm
      rw [hfold.killed_iff hleft, not_and] at hkilled
      exact Bool.eq_false_iff.mpr fun hself => hkilled hpol ⟨m, hm, hself⟩
  · rintro ⟨hrests, hunfilled, hsurvives⟩
    have hleft : 0 < (fold r.policy order order.quantity
        (reachable order (r.orders order.side.opposite))).remaining := by omega
    refine ⟨hleft, ?_, hrests⟩
    rw [hfold.killed_iff hleft]
    rintro ⟨hpol, m, hm, hself⟩
    rw [hsurvives hpol m hm] at hself
    cases hself

/-! ## Section 2: Cancelling what was reported -/

section addressing

variable {S : Type} [LevelStore S] [LawfulLevelStore S] {pf : Platform} {b b' : OrderBook S}

/-- `cancel_order` of the id returns true and takes out the order that rests
    under it. -/
def OrderBook.Cancellable (pf : Platform) (b : OrderBook S) (id : OrderId) : Prop :=
  (∃ side, ∃ o ∈ b.resting side, o.id = id) ∧
    ∃ b', b.cancelOrder pf id = some (true, b') ∧
      ∀ side, b'.resting side = (b.resting side).filter fun o => o.id ≠ id

/-- If the call added an order and reported it New or PartiallyFilled, the
    order can be cancelled. -/
def Addressable (pf : Platform) (a : Call × Clock) (reply : Reply) (b' : OrderBook S) : Prop :=
  ∀ order report, a.1 = .add order → reply.answer = .report report →
    report.status = .new ∨ report.status = .partiallyFilled → b'.Cancellable pf report.orderId

/-- A resting order can be cancelled exactly if its id is a real one. -/
theorem OrderBook.Valid.cancellable_iff {nz : Prop} (h : b.Valid pf nz) {o : Order}
    (ho : o ∈ b.reference.all) : b.Cancellable pf o.id ↔ o.id ≠ kInvalidOrderId := by
  obtain ⟨qs, hrep⟩ := h
  obtain ⟨b', -, hrun, -, href⟩ := hrep.cancelOrder_spec o.id
  constructor
  · rintro ⟨-, b₁, hcancel, -⟩ hzero
    rw [hrun] at hcancel
    have hflag := (Prod.mk.inj (Option.some.inj hcancel)).1
    rw [hzero] at hflag
    cases hflag
  · intro hne
    have hfound : b.reference.find o.id ≠ none := by
      rw [ne_eq, RefBook.find_eq_none]
      rintro (hzero | hnone)
      · exact hne hzero
      · exact hnone o ho rfl
    obtain ⟨x, hx⟩ := Option.ne_none_iff_exists'.mp hfound
    simp only [RefBook.cancelOrder, hx] at hrun href
    obtain ⟨side, hside⟩ := RefBook.mem_all.mp ho
    refine ⟨⟨side, o, hside, rfl⟩, b', hrun, fun side => ?_⟩
    exact congrFun (congrArg RefBook.orders href) side

/-- What the report of an order says of the book it leaves. -/
theorem RefBook.execute_resting (r : RefBook) (order : Order) (now : Clock)
    (hopen : 0 ≤ order.remainingQuantity) :
    ((r.execute order now).report.status = .new ∨
        (r.execute order now).report.status = .partiallyFilled ↔ r.Joins order) ∧
      (r.Joins order → ∃ o ∈ (r.execute order now).book.all, o.id = order.id) := by
  have hrem : 0 ≤ (r.matched order).remaining := (fold_folds _ _ _ _).remaining_nonneg hopen
  refine ⟨?_, ?_⟩
  · unfold execute Joins
    by_cases h₁ : (r.matched order).remaining = 0
    · simp [h₁]
    by_cases h₂ : ¬ (r.matched order).killed = true ∧ order.restsInBook = true
    · simp only [if_neg h₁, if_pos h₂]
      refine iff_of_true ?_ ⟨by omega, h₂⟩
      split
      · exact .inr rfl
      · exact .inl rfl
    · simp only [if_neg h₁, if_neg h₂]
      exact iff_of_false (by simp) fun hc => h₂ hc.2
  · intro hjoins
    unfold Joins at hjoins
    rw [execute_book r order now hopen, if_pos hjoins]
    exact ⟨{ order with remainingQuantity := (r.matched order).remaining },
      mem_all.mpr ⟨order.side, mem_rest.mpr (.inl ⟨rfl, rfl⟩)⟩, rfl⟩

/-- What the report of an added order says of the book it leaves. -/
theorem RefBook.addOrder_resting (pf : Platform) (r : RefBook) (order : Order) (now : Clock) :
    ((r.addOrder pf order now).report.status = .new ∨
        (r.addOrder pf order now).report.status = .partiallyFilled ↔
      r.rejectReason order = none ∧ r.Joins order.opened) ∧
      (r.rejectReason order = none ∧ r.Joins order.opened →
        ∃ o ∈ (r.addOrder pf order now).book.all, o.id = order.id) := by
  cases hreason : r.rejectReason order with
  | some reason => simp [addOrder, hreason, ExecutionReport.reject]
  | none =>
    cases hfok : r.fokKilled pf order with
    | true =>
      -- a FOK order never rests
      have hnot : ¬ r.Joins order.opened := by
        rintro ⟨-, -, hrests⟩
        have htif : order.timeInForce = .fok := (by simpa [fokKilled] using hfok : _ ∧ _).1
        simp [Order.restsInBook, Order.opened, htif] at hrests
      simp [addOrder, hreason, hfok, hnot]
    | false =>
      rw [addOrder_accepted hreason hfok]
      have hopen : 0 ≤ order.opened.remainingQuantity :=
        Int.le_of_lt (rejectReason_eq_none.mp hreason).1
      simpa using r.execute_resting order.opened now hopen

/-- The call adds an order without an id that the book accepts and that
    outlasts the makers it can reach. -/
def OrderBook.AddsUnnamed (b : OrderBook S) : Call → Prop
  | .add order => order.id = kInvalidOrderId ∧ b.reference.rejectReason order = none ∧
      b.reference.Outlasts order
  | _ => False

instance (b : OrderBook S) : (c : Call) → Decidable (b.AddsUnnamed c)
  | .add order => inferInstanceAs (Decidable (order.id = kInvalidOrderId ∧
      b.reference.rejectReason order = none ∧ b.reference.Outlasts order))
  | .cancel _ | .amend _ _ _ | .reset => instDecidableFalse

theorem OrderBook.Valid.addsUnnamed_iff {nz : Prop} (h : b.Valid pf nz) (c : Call) :
    b.AddsUnnamed c ↔ b.reference.RestsUnnamed c := by
  cases c with
  | add order =>
    unfold OrderBook.AddsUnnamed RefBook.RestsUnnamed
    constructor
    · rintro ⟨hid, hok, hout⟩
      exact ⟨hid, hok, (h.sound.joins_iff (RefBook.rejectReason_eq_none.mp hok).1).mpr hout⟩
    · rintro ⟨hid, hok, hjoins⟩
      exact ⟨hid, hok, (h.sound.joins_iff (RefBook.rejectReason_eq_none.mp hok).1).mp hjoins⟩
  | cancel | amend | reset => exact Iff.rfl

/-- **Step**: what a call reports resting can be cancelled exactly if it is
    not an order without an id. -/
theorem OrderBook.Valid.addressable_iff {nz : Prop} (h : b.Valid pf nz) (h' : b'.Valid pf nz)
    {c : Call} {now : Clock} (href : b'.reference = (b.reference.call pf (c, now)).2) :
    Addressable pf (c, now) (b.reference.call pf (c, now)).1 b' ↔ ¬ b.AddsUnnamed c := by
  rw [h.addsUnnamed_iff]
  cases c with
  | cancel | amend | reset =>
    refine iff_of_true ?_ id
    rintro order report hadd
    cases hadd
  | add order =>
    obtain ⟨hstatus, hmem⟩ := b.reference.addOrder_resting pf order now
    by_cases hrests : b.reference.rejectReason order = none ∧ b.reference.Joins order.opened
    · obtain ⟨o, ho, hid⟩ := hmem hrests
      have hreported := (RefBook.addOrder_reported pf now hrests.1).1
      have hcancel := h'.cancellable_iff (o := o) (by rw [href]; exact ho)
      rw [hid] at hcancel
      constructor
      · intro haddr hunnamed
        have := haddr order _ rfl rfl (hstatus.mpr hrests)
        rw [hreported] at this
        exact hcancel.mp this hunnamed.1
      · rintro hnamed order' report hadd hreport -
        obtain rfl : (b.reference.addOrder pf order now).report = report :=
          Answer.report.inj hreport
        rw [hreported]
        exact hcancel.mpr fun hzero => hnamed ⟨hzero, hrests⟩
    · refine iff_of_true ?_ fun hc => hrests hc.2
      rintro order' report hadd hreport hres
      obtain rfl : (b.reference.addOrder pf order now).report = report := Answer.report.inj hreport
      exact absurd (hstatus.mp hres) hrests

/-- With real ids only, the index counts the resting orders. -/
theorem OrderBook.Valid.orderCount_eq (h : b.Valid pf True) :
    b.orderCount = (b.resting .buy).length + (b.resting .sell).length := by
  obtain ⟨qs, hrep⟩ := h
  rw [hrep.resting_eq, hrep.resting_eq, List.length_map, List.length_map, ← List.length_append]
  exact (hrep.store.counted trivial).2.1

end addressing

/-! ## Section 3: Whole runs -/

/-- **Addressability**: in every run of a book, all orders reported resting can
    be cancelled by their id exactly when no order without an id is added that
    outlasts its makers; and without such an order `order_count` is the number
    of orders in the levels. -/
theorem resting_orders_addressable_iff (pf : Platform) (k : Approach) (b₀ : k.Book)
    (hb₀ : k.Built pf b₀) (calls : List (Call × Clock)) :
    ∃ replies b, Runs.exec (OrderBook.call pf) b₀ calls = some (replies, b) ∧
      (Runs.Along (OrderBook.call pf)
          (fun b a => ∀ reply b', b.call pf a = some (reply, b') → Addressable pf a reply b')
          b₀ calls ↔
        Runs.Along (OrderBook.call pf) (fun b a => ¬ b.AddsUnnamed a.1) b₀ calls) ∧
      (Runs.Along (OrderBook.call pf) (fun b a => ¬ b.AddsUnnamed a.1) b₀ calls →
        b.orderCount = (b.resting .buy).length + (b.resting .sell).length) := by
  obtain ⟨symbol, minPrice, maxPrice, hint, stpPolicy, hcreate⟩ := hb₀
  obtain ⟨replies, b, hrun, -⟩ := Runs.exec_history
    (P := fun _ (b : k.Book) => b.Valid pf False)
    (fun _ b a hvalid (_ : True) => by
      obtain ⟨b', hstep, hvalid', -⟩ := hvalid.call_spec a.1 a.2 False.elim
      exact ⟨_, b', hstep, hvalid'⟩)
    calls [] b₀ (Approach.create_spec False hcreate).1 (by simp)
  refine ⟨replies, b, hrun, ?_, ?_⟩
  · refine Runs.along_congr (P := fun b : k.Book => b.Valid pf False) ?_ calls b₀
      (Approach.create_spec False hcreate).1
    rintro b ⟨c, now⟩ hvalid
    obtain ⟨b', hstep, hvalid', href⟩ := hvalid.call_spec c now False.elim
    have hiff := hvalid.addressable_iff hvalid' href
    rw [hstep]
    simp only [Option.some.injEq, Prod.mk.injEq, and_imp, forall_apply_eq_imp_iff, forall_eq']
    exact ⟨hvalid', hiff⟩
  · intro halong
    obtain ⟨replies', b', hrun', hvalid⟩ := Runs.exec_along
      (P := fun _ (b : k.Book) => b.Valid pf True)
      (fun _ b a hvalid hok => by
        have hnamed : True → ¬ b.reference.RestsUnnamed a.1 :=
          fun _ hc => hok ((hvalid.addsUnnamed_iff a.1).mpr hc)
        obtain ⟨b', hstep, hvalid', -⟩ := hvalid.call_counts a.1 a.2 hnamed
        exact ⟨_, b', hstep, hvalid'⟩)
      calls [] b₀ (Approach.create_spec True hcreate).1 halong
    rw [hrun] at hrun'
    obtain ⟨rfl, rfl⟩ := Prod.mk.inj (Option.some.inj hrun')
    exact hvalid.orderCount_eq

/-- An IOC order without an id trades and is gone; the order it met stays
    addressable and counted. -/
theorem resting_orders_addressable_after_ioc :
    ∃ (calls : List (Call × Clock)) (replies : List Reply) (b₀ b : Approach.vector.Book),
      Approach.vector.create .int64 1 90 110 4 .none = some b₀ ∧
      Runs.exec (OrderBook.call .int64) b₀ calls = some (replies, b) ∧
      b.orderCount = (b.resting .buy).length + (b.resting .sell).length := by
  let calls : List (Call × Clock) :=
    [(.add ⟨1, 100, 5, 0, 0, 1, 7, .sell, .limit, .gtc⟩, fun _ => 0),
     (.add ⟨0, 100, 2, 0, 0, 1, 8, .buy, .limit, .ioc⟩, fun _ => 0)]
  obtain ⟨b₀, hb₀⟩ : ∃ b₀, Approach.vector.create .int64 1 90 110 4 .none = some b₀ := ⟨_, rfl⟩
  obtain ⟨replies, b, hrun, -, hcount⟩ := resting_orders_addressable_iff .int64 .vector b₀
    ⟨1, 90, 110, 4, .none, hb₀⟩ calls
  have halong : ∀ b ∈ Approach.vector.create .int64 1 90 110 4 .none,
      Runs.Along (OrderBook.call .int64) (fun b a => ¬ b.AddsUnnamed a.1) b calls := by
    decide +kernel
  exact ⟨calls, replies, b₀, b, hb₀, hrun, hcount (halong b₀ hb₀)⟩

/-- An order without an id is reported New, cannot be cancelled, and is still
    counted once a trade has taken it out. -/
theorem unnamed_order_lost :
    (Approach.array.session .int64 1 90 110 4 .none
      [(.add ⟨0, 100, 5, 0, 0, 1, 7, .sell, .limit, .gtc⟩, fun _ => 0),
       (.cancel 0, fun _ => 0),
       (.add ⟨2, 100, 5, 0, 0, 1, 8, .buy, .limit, .gtc⟩, fun _ => 0)]).map
        (fun x => (x.1.map Reply.answer, x.2.orderCount, x.2.resting .buy, x.2.resting .sell)) =
      some ([.report ⟨0, .new, 0, 5, .none⟩, .flag false, .report ⟨2, .filled, 5, 0, .none⟩],
        1, [], []) := by
  decide +kernel

end LightningLob
