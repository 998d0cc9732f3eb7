import LightningLob.Approach

/-! # What one call can do

    `Effect` lists the ways a call can go on the reference book, with what the
    caller sees and the book that is left.  Invariants of runs are proved by
    cases on it. -/

namespace LightningLob

namespace RefBook

/-! ## Section 1: An accepted order -/

section accepted

variable {r : RefBook} {order : Order} {now : Clock}

/-- Matching looks at the order, not at how much of it is open. -/
theorem matched_opened (r : RefBook) (order : Order) : r.matched order.opened =
    fold r.policy order order.quantity (reachable order (r.orders order.side.opposite)) :=
  fold_opened r.policy order order.quantity (reachable order (r.orders order.side.opposite))

theorem execute_trades (r : RefBook) (order : Order) (now : Clock) :
    (r.execute order now).trades = tradesOf r.symbol order now 0 (r.matched order).fills := by
  unfold execute
  by_cases h₁ : (r.matched order).remaining = 0
  · simp only [h₁, if_true]
  by_cases h₂ : ¬ (r.matched order).killed = true ∧ order.restsInBook = true
  · simp only [if_neg h₁, if_pos h₂]
  · simp only [if_neg h₁, if_neg h₂]

/-- The book an accepted order leaves. -/
theorem execute_book (r : RefBook) (order : Order) (now : Clock)
    (hopen : 0 ≤ order.remainingQuantity) : (r.execute order now).book =
      if 0 < (r.matched order).remaining ∧ ¬ (r.matched order).killed ∧ order.restsInBook then
        (r.afterMatch order).rest { order with remainingQuantity := (r.matched order).remaining }
      else
        r.afterMatch order := by
  have hrem : 0 ≤ (r.matched order).remaining := (fold_folds _ _ _ _).remaining_nonneg hopen
  unfold execute
  by_cases h₁ : (r.matched order).remaining = 0
  · simp [h₁]
  have hpos : 0 < (r.matched order).remaining := by omega
  by_cases h₂ : ¬ (r.matched order).killed = true ∧ order.restsInBook = true
  · simp only [if_neg h₁, if_pos h₂, if_pos (And.intro hpos h₂)]
  · have h₃ : ¬ (0 < (r.matched order).remaining ∧ ¬ (r.matched order).killed = true ∧
        order.restsInBook = true) := fun h => h₂ h.2
    simp only [if_neg h₁, if_neg h₂, if_neg h₃]

/-- On the opposite side the makers left are followed by those out of reach. -/
theorem execute_opposite (r : RefBook) (order : Order) (now : Clock)
    (hopen : 0 ≤ order.remainingQuantity) :
    (r.execute order now).book.orders order.side.opposite =
      (r.matched order).rest ++ beyond order (r.orders order.side.opposite) := by
  rw [execute_book r order now hopen]
  split
  · rw [rest, setOrders_of_ne (Side.opposite_ne order.side), afterMatch, setOrders_same]
  · rw [afterMatch, setOrders_same]

/-- On its own side the order may have joined. -/
theorem execute_own (r : RefBook) (order : Order) (now : Clock)
    (hopen : 0 ≤ order.remainingQuantity) :
    (r.execute order now).book.orders order.side =
      if 0 < (r.matched order).remaining ∧ ¬ (r.matched order).killed ∧ order.restsInBook then
        place { order with remainingQuantity := (r.matched order).remaining } (r.orders order.side)
      else
        r.orders order.side := by
  have hsame : (r.afterMatch order).orders order.side = r.orders order.side :=
    setOrders_of_ne (Side.opposite_ne order.side).symm
  rw [execute_book r order now hopen]
  split
  · rw [rest, setOrders_same, hsame]
  · exact hsame

/-- An accepted order is never reported as rejected. -/
theorem execute_status (r : RefBook) (order : Order) (now : Clock) :
    (r.execute order now).report.status ≠ .rejected := by
  unfold execute
  by_cases h₁ : (r.matched order).remaining = 0
  · simp [h₁]
  by_cases h₂ : ¬ (r.matched order).killed = true ∧ order.restsInBook = true
  · simp only [if_neg h₁, if_pos h₂]
    split <;> simp
  · simp only [if_neg h₁, if_neg h₂]
    simp

/-- A report is under the order's id. -/
theorem execute_orderId (r : RefBook) (order : Order) (now : Clock) :
    (r.execute order now).report.orderId = order.id := by
  unfold execute
  by_cases h₁ : (r.matched order).remaining = 0
  · simp only [h₁, if_true]
  by_cases h₂ : ¬ (r.matched order).killed = true ∧ order.restsInBook = true
  · simp only [if_neg h₁, if_pos h₂]
  · simp only [if_neg h₁, if_neg h₂]

theorem addOrder_accepted {pf : Platform} (h₁ : r.rejectReason order = none)
    (h₂ : r.fokKilled pf order = false) :
    r.addOrder pf order now = r.execute order.opened now := by
  simp [addOrder, h₁, h₂]

/-- An order that passes the checks is reported under its id, and not as
    rejected. -/
theorem addOrder_reported (pf : Platform) (now : Clock) (h : r.rejectReason order = none) :
    (r.addOrder pf order now).report.orderId = order.id ∧
      (r.addOrder pf order now).report.status ≠ .rejected := by
  cases hfok : r.fokKilled pf order with
  | true => simp [addOrder, h, hfok]
  | false =>
    rw [addOrder_accepted h hfok]
    exact ⟨execute_orderId r order.opened now, execute_status r order.opened now⟩

end accepted

/-! ## Section 2: Taking an id out -/

section removing

variable {r : RefBook}

theorem Sound.remove {nz : Prop} (h : r.Sound nz) (id : OrderId) : (r.remove id).Sound nz := by
  have hall : (r.remove id).all.Sublist r.all :=
    List.Sublist.append List.filter_sublist List.filter_sublist
  refine ⟨?_, ?_, ?_, ?_⟩
  · exact fun side => (h.priority side).sublist List.filter_sublist
  · exact fun side o ho => h.placed side o (List.mem_of_mem_filter ho)
  · exact fun o ho => h.range o (hall.mem ho)
  · intro hz
    obtain ⟨hnd, hne⟩ := h.ids hz
    exact ⟨hnd.sublist (hall.map _), fun o ho => hne o (hall.mem ho)⟩

theorem mem_remove {id : OrderId} {o : Order} : o ∈ (r.remove id).all ↔ o ∈ r.all ∧ o.id ≠ id := by
  simp only [mem_all, remove, List.mem_filter, decide_eq_true_eq]
  constructor
  · rintro ⟨side, ho, hid⟩
    exact ⟨⟨side, ho⟩, hid⟩
  · rintro ⟨⟨side, ho⟩, hid⟩
    exact ⟨side, ho, hid⟩

theorem find_remove (r : RefBook) (id : OrderId) : (r.remove id).find id = none := by
  rw [find_eq_none]
  exact Or.inr fun o ho => (mem_remove.mp ho).2

end removing

/-! ## Section 3: The ways a call can go -/

/-- The caller sees `reply` of the call, and the book becomes the last
    argument. -/
inductive Effect (r : RefBook) : Call → Reply → RefBook → Prop where
  /-- `add_order` refuses the order. -/
  | refused {order reason} :
      Effect r (.add order) ⟨.report (.reject order.id reason), []⟩ r
  /-- The FOK dry run kills the order. -/
  | killed {order} (hok : r.rejectReason order = none) :
      Effect r (.add order) ⟨.report ⟨order.id, .cancelled, 0, 0, .none⟩, []⟩ r
  /-- The order is matched. -/
  | executed {order now} (hok : r.rejectReason order = none) :
      Effect r (.add order) ⟨.report (r.execute order.opened now).report,
        (r.execute order.opened now).trades⟩ (r.execute order.opened now).book
  /-- `cancel_order` knows no such order. -/
  | unknown {id} : Effect r (.cancel id) ⟨.flag false, []⟩ r
  | cancelled {id o} (hfind : r.find id = some o) :
      Effect r (.cancel id) ⟨.flag true, []⟩ (r.remove id)
  /-- `amend_order` refuses up front. -/
  | denied {id quantity price reason} :
      Effect r (.amend id quantity price) ⟨.report (.reject id reason), []⟩ r
  /-- The order is resized in place. -/
  | resized {id quantity price o} (hfind : r.find id = some o) (hq : 0 < quantity)
      (hle : quantity ≤ o.remainingQuantity) :
      Effect r (.amend id quantity price) ⟨.report ⟨id, .new, 0, quantity, .none⟩, []⟩
        (r.resize id quantity)
  /-- The order is taken out and its replacement is matched. -/
  | replaced {id quantity price o now} {timestamp : Timestamp} (hfind : r.find id = some o)
      (hok : (r.remove id).rejectReason (OrderBook.replacement o quantity price timestamp) = none) :
      Effect r (.amend id quantity price)
        ⟨.report
            ((r.remove id).execute (OrderBook.replacement o quantity price timestamp) now).report,
          ((r.remove id).execute (OrderBook.replacement o quantity price timestamp) now).trades⟩
        ((r.remove id).execute (OrderBook.replacement o quantity price timestamp) now).book
  /-- The order is taken out and its replacement is refused. -/
  | lost {id quantity price o reason} (hfind : r.find id = some o) :
      Effect r (.amend id quantity price) ⟨.report (.reject id reason), []⟩ (r.remove id)
  | reset : Effect r .reset ⟨.done, []⟩ r.reset

theorem addOrder_effect (pf : Platform) (r : RefBook) (order : Order) (now : Clock) :
    r.Effect (.add order)
      ⟨.report (r.addOrder pf order now).report, (r.addOrder pf order now).trades⟩
      (r.addOrder pf order now).book := by
  cases hok : r.rejectReason order with
  | some reason =>
    simp only [addOrder, hok]
    exact .refused
  | none =>
    cases hfok : r.fokKilled pf order with
    | true =>
      simp only [addOrder, hok, hfok, if_true]
      exact .killed hok
    | false =>
      rw [addOrder_accepted hok hfok]
      exact .executed hok

/-- The order that amends an id replaces an order that can rest. -/
theorem find_placed {nz : Prop} {r : RefBook} (h : r.Sound nz) {id : OrderId} {o : Order}
    (hfind : r.find id = some o) : Placed o.side o.price o := by
  obtain ⟨side, ho⟩ := mem_all.mp (find_some hfind).2.1
  have hp := h.placed side o ho
  rw [hp.side_eq]
  exact hp

theorem amendOrder_effect (pf : Platform) {nz : Prop} {r : RefBook} (h : r.Sound nz) (id : OrderId)
    (newQuantity : Int) (newPrice : Option Int) (now : Clock) :
    r.Effect (.amend id newQuantity newPrice)
      ⟨.report (r.amendOrder pf id newQuantity newPrice now).report,
        (r.amendOrder pf id newQuantity newPrice now).trades⟩
      (r.amendOrder pf id newQuantity newPrice now).book := by
  cases hfind : r.find id with
  | none =>
    simp only [amendOrder, hfind]
    exact .denied
  | some o =>
    simp only [amendOrder, hfind]
    by_cases hq : newQuantity ≤ 0
    · rw [if_pos hq]
      exact .denied
    rw [if_neg hq]
    by_cases hr : (newPrice.any fun p => ¬ r.inRange p) = true
    · rw [if_pos hr]
      exact .denied
    rw [if_neg hr]
    -- same price and no larger: time priority is kept
    by_cases hkeep : (¬ (newPrice.any fun p => p ≠ o.price) = true) ∧
        ¬ newQuantity > o.remainingQuantity
    · rw [if_pos hkeep]
      exact .resized hfind (by omega) (by omega)
    rw [if_neg hkeep]
    obtain ⟨-, -, hoid⟩ := find_some hfind
    -- priority is lost: the replacement goes through `add_order`
    generalize hrepl : OrderBook.replacement o newQuantity newPrice (now 0) = repl
    have hid : repl.id = id := by rw [← hrepl]; exact hoid
    cases hok : (r.remove id).rejectReason repl with
    | some reason =>
      simp only [addOrder, hok, hid]
      exact .lost hfind
    | none =>
      -- a replacement is GTC, so the dry run is not made
      have hfok : (r.remove id).fokKilled pf repl = false := by
        have hrests := (find_placed h hfind).rests
        rw [Order.restsInBook, decide_eq_true_eq] at hrests
        have htif : repl.timeInForce = .gtc := by rw [← hrepl]; exact hrests.2
        simp [fokKilled, htif]
      rw [addOrder_accepted hok hfok]
      subst hrepl
      exact .replaced hfind hok

/-- **Inversion**: every call is one of them. -/
theorem call_effect (pf : Platform) {nz : Prop} {r : RefBook} (h : r.Sound nz) (c : Call)
    (now : Clock) : r.Effect c (r.call pf (c, now)).1 (r.call pf (c, now)).2 := by
  cases c with
  | add order => exact addOrder_effect pf r order now
  | cancel id =>
    cases hfind : r.find id with
    | none =>
      simp only [call, cancelOrder, hfind]
      exact .unknown
    | some o =>
      simp only [call, cancelOrder, hfind]
      exact .cancelled hfind
  | amend id newQuantity newPrice => exact amendOrder_effect pf h id newQuantity newPrice now
  | reset => exact .reset

/-- No call changes the symbol, the policy or the price band. -/
structure SameSetup (r r' : RefBook) : Prop where
  symbol_eq : r'.symbol = r.symbol
  policy_eq : r'.policy = r.policy
  range_eq : r'.inRange = r.inRange

theorem execute_setup (r : RefBook) (order : Order) (now : Clock)
    (hopen : 0 ≤ order.remainingQuantity) : SameSetup r (r.execute order now).book := by
  rw [execute_book r order now hopen]
  split <;> exact ⟨rfl, rfl, rfl⟩

theorem Effect.setup {r r' : RefBook} {c : Call} {reply : Reply} (h : r.Effect c reply r') :
    SameSetup r r' := by
  cases h with
  | executed hok => exact execute_setup r _ _ (Int.le_of_lt (rejectReason_eq_none.mp hok).1)
  | @replaced id quantity price o now timestamp _ hok =>
    obtain ⟨h₁, h₂, h₃⟩ := execute_setup (r.remove id)
      (OrderBook.replacement o quantity price timestamp) now
      (Int.le_of_lt (rejectReason_eq_none.mp hok).1)
    exact ⟨h₁, h₂, h₃⟩
  | _ => exact ⟨rfl, rfl, rfl⟩

end RefBook

end LightningLob
