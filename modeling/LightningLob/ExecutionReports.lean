import LightningLob.Ownership

/-! # What execution reports say

    A report is computed from the taker's own remainder once matching is over.
    It agrees with the trades the call has emitted and with what the call has
    left resting under the order's id. -/

namespace LightningLob

/-! ## Section 1: Exact reports -/

/-- An order with the id rests. -/
def RefBook.Rests (r : RefBook) (id : OrderId) : Prop := ∃ o ∈ r.all, o.id = id

/-- The report on an order of quantity `q` agrees with the trades of the call
    and the book it left. -/
structure ExactReport (id : OrderId) (q : Int) (report : ExecutionReport) (trades : List Trade)
    (r : RefBook) : Prop where
  takers : ∀ t ∈ trades, t.takerOrderId = id
  filled_eq : report.filledQuantity = (trades.map Trade.quantity).sum
  /-- What rests under the id is what is reported as remaining. -/
  remaining_eq : ∀ o ∈ r.all, o.id = id → o.remainingQuantity = report.remainingQuantity
  remaining_zero : ¬ r.Rests id → report.remainingQuantity = 0
  filled_iff : report.status = .filled ↔ report.filledQuantity = q
  new_iff : report.status = .new ↔ report.filledQuantity = 0 ∧ r.Rests id
  partial_iff : report.status = .partiallyFilled ↔
    0 < report.filledQuantity ∧ report.filledQuantity < q ∧ r.Rests id
  cancelled_iff : report.status = .cancelled ↔ report.filledQuantity < q ∧ ¬ r.Rests id
  total : r.Rests id → report.filledQuantity + report.remainingQuantity = q

section reports

variable {id : OrderId} {q filled remaining : Int} {trades : List Trade} {r : RefBook}

/-- The order is filled, or what is left of it is discarded. -/
theorem ExactReport.of_gone (htakers : ∀ t ∈ trades, t.takerOrderId = id)
    (hfilled : (trades.map Trade.quantity).sum = filled) (hle : filled ≤ q)
    (hgone : ∀ o ∈ r.all, o.id ≠ id) :
    ExactReport id q ⟨id, if filled = q then .filled else .cancelled, filled, 0, .none⟩ trades
      r := by
  have hrests : ¬ r.Rests id := fun ⟨o, ho, hid⟩ => hgone o ho hid
  refine ⟨htakers, hfilled.symm, fun o ho hid => absurd hid (hgone o ho), fun _ => rfl,
    ?_, ?_, ?_, ?_, fun h => absurd h hrests⟩
  · show (if filled = q then _ else _) = _ ↔ filled = q
    split <;> simp_all
  · show (if filled = q then _ else _) = _ ↔ _
    split <;> simp [hrests]
  · show (if filled = q then _ else _) = _ ↔ _
    split <;> simp [hrests]
  · show (if filled = q then _ else _) = _ ↔ filled < q ∧ _
    split
    · next heq => simp [heq]
    · next hne =>
      simp only [hrests, not_false_eq_true, and_true, true_iff]
      omega

/-- Something is left of the order and rests under its id. -/
theorem ExactReport.of_rests (htakers : ∀ t ∈ trades, t.takerOrderId = id)
    (hfilled : (trades.map Trade.quantity).sum = filled) (hnonneg : 0 ≤ filled)
    (htotal : filled + remaining = q) (hpos : 0 < remaining) (hrests : r.Rests id)
    (hopen : ∀ o ∈ r.all, o.id = id → o.remainingQuantity = remaining) :
    ExactReport id q
      ⟨id, if filled > 0 then .partiallyFilled else .new, filled, remaining, .none⟩ trades r := by
  refine ⟨htakers, hfilled.symm, hopen, fun h => absurd hrests h, ?_, ?_, ?_, ?_, fun _ => htotal⟩
  · show (if filled > 0 then _ else _) = _ ↔ filled = q
    have hne : filled ≠ q := by omega
    split <;> simp [hne]
  · show (if filled > 0 then _ else _) = _ ↔ filled = 0 ∧ _
    split
    · next hgt =>
      have hne : filled ≠ 0 := by omega
      simp [hne]
    · next hle =>
      simp only [hrests, and_true, true_iff]
      omega
  · show (if filled > 0 then _ else _) = _ ↔ 0 < filled ∧ filled < q ∧ _
    have hlt : filled < q := by omega
    split
    · next hgt => simp [hgt, hlt, hrests]
    · next hle => simp [hle]
  · show (if filled > 0 then _ else _) = _ ↔ _
    split <;> simp [hrests]

end reports

namespace RefBook

variable {r : RefBook} {order : Order} {now : Clock}

/-! ## Section 2: An accepted order -/

theorem tradesOf_quantity (symbol : SymbolId) (taker : Order) (now : Clock) (k : Nat)
    (fills : List (Order × Int)) :
    ((tradesOf symbol taker now k fills).map Trade.quantity) = fills.map Prod.snd := by
  induction fills generalizing k with
  | nil => rfl
  | cons f fills ih => simp [tradesOf, ih]

/-- No order with a new id rests once the order has matched. -/
theorem afterMatch_fresh (hfresh : ∀ o ∈ r.all, o.id ≠ order.id) :
    ∀ o ∈ (r.afterMatch order).all, o.id ≠ order.id := by
  intro o ho
  obtain ⟨side, ho⟩ := mem_all.mp ho
  obtain ⟨m, hm, heq, -, -⟩ := mem_afterMatch ho
  rw [heq]
  exact hfresh m (mem_all.mpr ⟨side, hm⟩)

/-- **Accepted orders** are reported exactly. -/
theorem Sound.execute_exact {nz : Prop} (h : r.Sound nz) (hq : 0 < order.quantity)
    (hopen : order.remainingQuantity = order.quantity)
    (hfresh : ∀ o ∈ r.all, o.id ≠ order.id) :
    ExactReport order.id order.quantity (r.execute order now).report (r.execute order now).trades
      (r.execute order now).book := by
  have hfold := fold_folds r.policy order order.remainingQuantity
    (reachable order (r.orders order.side.opposite))
  have hnonneg : 0 ≤ (r.matched order).remaining := hfold.remaining_nonneg (by omega)
  have hle : (r.matched order).remaining ≤ order.remainingQuantity :=
    hfold.remaining_le fun m hm => (h.maker_open hm).2
  have hsum : ((r.matched order).fills.map Prod.snd).sum =
      order.remainingQuantity - (r.matched order).remaining := hfold.fills_sum
  have hgone := afterMatch_fresh hfresh
  have htakers : ∀ t ∈ (r.execute order now).trades, t.takerOrderId = order.id := by
    intro t ht
    rw [execute_trades] at ht
    obtain ⟨f, -, i, rfl⟩ := mem_tradesOf ht
    rfl
  have htraded : ((r.execute order now).trades.map Trade.quantity).sum =
      order.quantity - (r.matched order).remaining := by
    rw [execute_trades, tradesOf_quantity, hsum, hopen]
  have hall : order.quantity - (r.matched order).remaining ≤ order.quantity := by omega
  rw [execute_trades] at htakers htraded
  unfold execute
  by_cases h₁ : (r.matched order).remaining = 0
  · -- filled
    simp only [if_pos h₁]
    have hexact := ExactReport.of_gone htakers htraded hall hgone
    rwa [if_pos (by omega)] at hexact
  simp only [if_neg h₁]
  by_cases h₂ : ¬ (r.matched order).killed = true ∧ order.restsInBook = true
  · -- the remainder joins its side
    simp only [if_pos h₂]
    refine ExactReport.of_rests htakers htraded (by omega) (by omega) (by omega) ?_ ?_
    · exact ⟨_, mem_all.mpr ⟨order.side, mem_rest.mpr (.inl ⟨rfl, rfl⟩)⟩, rfl⟩
    · intro o ho hid
      obtain ⟨side, ho⟩ := mem_all.mp ho
      rcases mem_rest.mp ho with ⟨-, rfl⟩ | ho
      · rfl
      · exact absurd hid (hgone o (mem_all.mpr ⟨side, ho⟩))
  · -- the remainder is discarded
    simp only [if_neg h₂]
    have hexact := ExactReport.of_gone htakers htraded hall hgone
    rwa [if_neg (by omega)] at hexact

theorem Sound.addOrder_exact (pf : Platform) {nz : Prop} (h : r.Sound nz)
    (hid : order.id ≠ kInvalidOrderId)
    (hstatus : (r.addOrder pf order now).report.status ≠ .rejected) :
    ExactReport order.id order.quantity (r.addOrder pf order now).report
      (r.addOrder pf order now).trades (r.addOrder pf order now).book := by
  cases hok : r.rejectReason order with
  | some reason => simp [addOrder, hok, ExecutionReport.reject] at hstatus
  | none =>
    have hq := (rejectReason_eq_none.mp hok).1
    have hfresh := fresh_of_accepted hok hid
    cases hfok : r.fokKilled pf order with
    | true =>
      -- killed by the dry run: nothing was traded
      simp only [addOrder, hok, hfok, if_true]
      have hexact := ExactReport.of_gone
        (show ∀ t ∈ ([] : List Trade), t.takerOrderId = order.id by simp)
        (show _ = (0 : Int) from rfl) (Int.le_of_lt hq) hfresh
      rwa [if_neg (by omega)] at hexact
    | false =>
      rw [addOrder_accepted hok hfok]
      show ExactReport order.opened.id order.opened.quantity _ _ _
      exact h.execute_exact hq rfl hfresh

/-! ## Section 3: A cancel-replace amend -/

/-- The amend of a resting order does not keep its time priority: the price
    changes or the quantity grows. -/
def LosesPriority (o : Order) (newQuantity : Int) (newPrice : Option Int) : Prop :=
  (∃ p, newPrice = some p ∧ p ≠ o.price) ∨ o.remainingQuantity < newQuantity

theorem Sound.amendOrder_exact (pf : Platform) {nz : Prop} (h : r.Sound nz) {id : OrderId}
    {newQuantity : Int} {newPrice : Option Int} {o : Order} (hfind : r.find id = some o)
    (hloses : LosesPriority o newQuantity newPrice)
    (hstatus : (r.amendOrder pf id newQuantity newPrice now).report.status ≠ .rejected) :
    ExactReport id newQuantity (r.amendOrder pf id newQuantity newPrice now).report
      (r.amendOrder pf id newQuantity newPrice now).trades
      (r.amendOrder pf id newQuantity newPrice now).book := by
  obtain ⟨hne, -, hoid⟩ := find_some hfind
  have hkeep : ¬ ((¬ (newPrice.any fun p => p ≠ o.price) = true) ∧
      ¬ newQuantity > o.remainingQuantity) := by
    rintro ⟨hprice, hquantity⟩
    rcases hloses with ⟨p, rfl, hp⟩ | hlt
    · exact hprice (by simpa using hp)
    · exact hquantity hlt
  simp only [amendOrder, hfind] at hstatus ⊢
  by_cases hq : newQuantity ≤ 0
  · simp [hq, ExecutionReport.reject] at hstatus
  by_cases hr : (newPrice.any fun p => ¬ r.inRange p) = true
  · rw [if_neg hq, if_pos hr] at hstatus
    exact absurd rfl hstatus
  rw [if_neg hq, if_neg hr, if_neg hkeep] at hstatus ⊢
  have hid : (OrderBook.replacement o newQuantity newPrice (now 0)).id = id := hoid
  have hexact := (h.remove id).addOrder_exact pf (by rw [hid]; exact hne) hstatus
  rwa [hid] at hexact

end RefBook

/-! ## Section 4: The three books -/

/-- **Reports**: in every reachable book, `add_order` of an order with a real id
    and an `amend_order` that takes its order out of the queue return, and
    unless they reject, their report is exact.  This is said of the source while
    fewer than `2 ^ 32 - 1` orders rest. -/
theorem execution_reports_exact (pf : Platform) (k : Approach) (b : k.Book)
    (hb : k.Reachable pf (fun _ => True) b) (now : Clock) :
    (∀ order : Order, order.id ≠ kInvalidOrderId →
      ∃ out, b.addOrder pf order now = some out ∧
        (out.report.status ≠ .rejected →
          ExactReport order.id order.quantity out.report out.trades out.book.reference)) ∧
    (∀ (id : OrderId) (newQuantity : Int) (newPrice : Option Int),
      ∃ out, b.amendOrder pf id newQuantity newPrice now = some out ∧
        ∀ o, b.reference.find id = some o → RefBook.LosesPriority o newQuantity newPrice →
          out.report.status ≠ .rejected →
          ExactReport id newQuantity out.report out.trades out.book.reference) := by
  obtain ⟨qs, hrep⟩ : b.Valid pf False := hb.valid fun _ _ hz => hz.elim
  refine ⟨?_, ?_⟩
  · intro order hid
    obtain ⟨out, hrun, href⟩ := hrep.addOrder_spec order now False.elim
    refine ⟨out, hrun, fun hstatus => ?_⟩
    rw [href.report] at hstatus ⊢
    rw [href.trades, href.book]
    exact hrep.sound.addOrder_exact pf hid hstatus
  · intro id newQuantity newPrice
    obtain ⟨out, hrun, href⟩ := hrep.amendOrder_spec id newQuantity newPrice now
    refine ⟨out, hrun, fun o hfind hloses hstatus => ?_⟩
    rw [href.report] at hstatus ⊢
    rw [href.trades, href.book]
    exact hrep.sound.amendOrder_exact pf hfind hloses hstatus

/-- A bid trades with another's ask and is stopped by one of its own: part of
    it is filled, the rest is gone. -/
theorem execution_reports_exact_stopped :
    ∃ (b : Approach.array.Book) (out : Outcome Approach.array.Levels),
      Approach.array.Reachable .int64 (fun _ => True) b ∧
      b.addOrder .int64 ⟨3, 101, 8, 0, 0, 1, 9, .buy, .limit, .gtc⟩ (fun _ => 0) = some out ∧
      out.report = ⟨3, .cancelled, 3, 0, .none⟩ ∧
      ExactReport 3 8 out.report out.trades out.book.reference := by
  obtain ⟨replies, b, hrun, hreport⟩ := Approach.session_ends
    (P := fun b => (b.addOrder .int64 ⟨3, 101, 8, 0, 0, 1, 9, .buy, .limit, .gtc⟩
      (fun _ => 0)).map Outcome.report = some ⟨3, .cancelled, 3, 0, .none⟩)
    (show ((Approach.array.session .int64 1 90 110 4 .cancelIncoming
      [(.add ⟨1, 100, 3, 0, 0, 1, 7, .sell, .limit, .gtc⟩, fun _ => 0),
       (.add ⟨2, 101, 5, 0, 0, 1, 9, .sell, .limit, .gtc⟩, fun _ => 0)]).any _) = true by
        decide +kernel)
  have hb : Approach.array.Reachable .int64 (fun _ => True) b :=
    Approach.reachable_of_session (fun _ _ => trivial) hrun
  obtain ⟨out, hout, hexact⟩ := (execution_reports_exact .int64 .array b hb fun _ => 0).1
    ⟨3, 101, 8, 0, 0, 1, 9, .buy, .limit, .gtc⟩ (by decide)
  rw [hout] at hreport
  have hreport' : out.report = ⟨3, .cancelled, 3, 0, .none⟩ := Option.some.inj hreport
  exact ⟨b, out, hb, hout, hreport', hexact (by rw [hreport']; decide)⟩

end LightningLob
