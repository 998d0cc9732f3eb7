import LightningLob.CallEffects

/-! # Rejected amends

    `amend_order` takes the order out before it adds the replacement, so a
    rejection by the nested `add_order` loses the order.  The array book
    checks the new price against its band first; the map and vector books do
    not check it at all. -/

namespace LightningLob

namespace RefBook

/-! ## Section 1: When the replacement is refused -/

/-- The replacement of a resting order passes every check but the one on its
    price's sign. -/
theorem replacement_rejected_iff {nz : Prop} {r : RefBook} (h : r.Sound nz) {id : OrderId}
    {o : Order} (hfind : r.find id = some o) {newQuantity : Int} (hq : 0 < newQuantity)
    {newPrice : Option Int} (hr : ∀ p, newPrice = some p → r.inRange p = true)
    (timestamp : Timestamp) :
    ((r.remove id).rejectReason (OrderBook.replacement o newQuantity newPrice timestamp)) ≠ none ↔
      ∃ p, newPrice = some p ∧ p ≤ 0 := by
  obtain ⟨-, hmem, hoid⟩ := find_some hfind
  have hplaced := find_placed h hfind
  have htype : o.type = .limit := by
    have := hplaced.rests
    rw [Order.restsInBook, decide_eq_true_eq] at this
    exact this.1
  -- the id has just been taken out, so it is no duplicate
  have hfree : (r.remove id).find (OrderBook.replacement o newQuantity newPrice timestamp).id =
      none := by
    rw [show (OrderBook.replacement o newQuantity newPrice timestamp).id = id from hoid]
    exact find_remove r id
  rw [ne_eq, rejectReason_eq_none]
  cases newPrice with
  -- the price stays, and it was good enough to rest at
  | none =>
    have hrange : r.inRange o.price = true := h.range o hmem
    simp only [reduceCtorEq, false_and, exists_false, iff_false, not_not]
    exact ⟨hq, fun _ => ⟨hplaced.price_pos, hrange⟩, hfree⟩
  | some p =>
    have hrange : r.inRange p = true := hr p rfl
    constructor
    · intro hnot
      refine ⟨p, rfl, ?_⟩
      by_contra hp
      exact hnot ⟨hq, fun _ => ⟨by simpa [OrderBook.replacement] using hp, hrange⟩, hfree⟩
    · rintro ⟨p', hp', hle⟩ ⟨-, hprice, -⟩
      cases hp'
      have hpos : 0 < p := (hprice htype).1
      omega

/-- A new price in range, or none, passes the range check of `amend_order`. -/
theorem newPrice_in_range {range : Int → Bool} {newPrice : Option Int}
    (h : ∀ p, newPrice = some p → range p = true) :
    ¬ (newPrice.any fun p => ¬ range p) = true := by
  cases newPrice with
  | none => simp
  | some p => simpa using h p rfl

/-- Past the checks up front, an amend is rejected exactly when the replacement
    is, and then the order is gone. -/
theorem amendOrder_rejected (pf : Platform) {nz : Prop} {r : RefBook} (h : r.Sound nz)
    {id : OrderId} {o : Order} (hfind : r.find id = some o) {newQuantity : Int}
    (hq : 0 < newQuantity) {newPrice : Option Int}
    (hr : ∀ p, newPrice = some p → r.inRange p = true) (now : Clock) :
    ((r.amendOrder pf id newQuantity newPrice now).report.status = .rejected ↔
      ∃ p, newPrice = some p ∧ p ≤ 0) ∧
    ((r.amendOrder pf id newQuantity newPrice now).report.status = .rejected →
      (r.amendOrder pf id newQuantity newPrice now).book = r.remove id) := by
  have hrange := newPrice_in_range hr
  simp only [amendOrder, hfind, if_neg (Int.not_le.mpr hq), if_neg hrange]
  by_cases hkeep : (¬ (newPrice.any fun p => p ≠ o.price) = true) ∧
      ¬ newQuantity > o.remainingQuantity
  · -- in place: the price is the order's own, which is positive
    rw [if_pos hkeep]
    refine ⟨⟨fun hs => (by cases hs), ?_⟩, fun hs => (by cases hs)⟩
    rintro ⟨p, rfl, hp⟩
    have hprice : p = o.price := by simpa using hkeep.1
    have hpos := (find_placed h hfind).price_pos
    omega
  · rw [if_neg hkeep, ← replacement_rejected_iff h hfind hq hr (now 0)]
    generalize OrderBook.replacement o newQuantity newPrice (now 0) = repl
    cases hok : (r.remove id).rejectReason repl with
    | some reason => simp [addOrder, hok, ExecutionReport.reject]
    | none =>
      have hstatus : ((r.remove id).addOrder pf repl fun k => now (k + 1)).report.status ≠
          .rejected := by
        cases hfok : (r.remove id).fokKilled pf repl with
        | true => simp [addOrder, hok, hfok]
        | false =>
          rw [addOrder_accepted hok hfok]
          exact execute_status _ _ _
      simp [hstatus]

end RefBook

/-! ## Section 2: Exactly when a rejected amend changes nothing -/

/-- The amend that loses its order: the id rests, the quantity is fine, and a
    book without a price band is given a price that is not positive. -/
def LosesOrder {k : Approach} (b : k.Book) (id : OrderId) (newQuantity : Int)
    (newPrice : Option Int) : Prop :=
  k ≠ .array ∧ (∃ idx, b.idIndex.find id = some (some idx)) ∧ 0 < newQuantity ∧
    ∃ p, newPrice = some p ∧ p ≤ 0

/-- A price the book can hold is positive on the array book. -/
theorem Approach.inRange_pos {pf : Platform} {nz : Prop} {b : Approach.array.Book}
    {qs : Side → List (List Nat)} (h : BookRep pf nz b qs) {p : Int} (hp : b.inRange p = true) :
    0 < p := by
  have hwf : ArrayLevels.WF .buy b.bids := (h.sides .buy).wf
  have hpos := hwf.positive
  have hle : b.bids.minPrice ≤ p ∧ p ≤ b.bids.maxPrice := of_decide_eq_true hp
  omega

theorem Approach.inRange_of_ne_array {k : Approach} (hk : k ≠ .array) (b : k.Book) (p : Int) :
    b.inRange p = true := by
  cases k with
  | map | vector => rfl
  | array => exact (hk rfl).elim

/-- **Rejected amends**: in every reachable book, an amend returns, and if it is
    rejected it has emitted no trade and left the book as it was, exactly when
    it is not one that loses its order.  This is said of the source while fewer
    than `2 ^ 32 - 1` orders rest. -/
theorem rejected_amend_changes_nothing_iff (pf : Platform) (k : Approach) (b : k.Book)
    (hb : k.Reachable pf (fun _ => True) b) (id : OrderId) (newQuantity : Int)
    (newPrice : Option Int) (now : Clock) :
    (∃ out, b.amendOrder pf id newQuantity newPrice now = some out ∧
      (out.report.status = .rejected → out.trades = [] ∧ out.book = b)) ↔
      ¬ LosesOrder b id newQuantity newPrice := by
  obtain ⟨qs, hrep⟩ : b.Valid pf False := hb.valid fun _ _ hz => hz.elim
  obtain ⟨hfind, href⟩ := hrep.find_eq id
  -- a check up front that fails returns the book as it is
  have denied : ∀ reason, b.amendOrder pf id newQuantity newPrice now =
      some ⟨.reject id reason, [], b⟩ → ¬ LosesOrder b id newQuantity newPrice →
      ((∃ out, b.amendOrder pf id newQuantity newPrice now = some out ∧
        (out.report.status = .rejected → out.trades = [] ∧ out.book = b)) ↔
        ¬ LosesOrder b id newQuantity newPrice) := by
    intro reason hrun hnot
    exact iff_of_true ⟨_, hrun, fun _ => ⟨rfl, rfl⟩⟩ hnot
  cases hl : b.idIndex.lookup id with
  | none =>
    rw [hl] at hfind
    refine denied .unknownOrder (by simp [OrderBook.amendOrder, hfind]) ?_
    rintro ⟨-, ⟨idx, hidx⟩, -⟩
    rw [hfind] at hidx
    cases hidx
  | some i =>
    rw [hl] at hfind href
    by_cases hq : newQuantity ≤ 0
    · refine denied .invalidQuantity (by simp [OrderBook.amendOrder, hfind, hq]) ?_
      rintro ⟨-, -, hpos, -⟩
      omega
    by_cases hr : (newPrice.any fun p => ¬ b.inRange p) = true
    · refine denied .priceOutOfRange
        (by simp only [OrderBook.amendOrder, hfind, Option.bind_eq_bind, Option.bind_some,
          if_neg hq, if_pos hr]; rfl) ?_
      rintro ⟨hk, -⟩
      cases newPrice with
      | none => cases hr
      | some p => simp [Approach.inRange_of_ne_array hk b p] at hr
    -- past the checks the reference decides
    have hq' : 0 < newQuantity := by omega
    have hrange : ∀ p, newPrice = some p → b.reference.inRange p = true := by
      rintro p rfl
      simpa using hr
    obtain ⟨out, hrun, hout⟩ := hrep.amendOrder_spec id newQuantity newPrice now
    obtain ⟨hrej, hbook⟩ :=
      RefBook.amendOrder_rejected pf hrep.sound href hq' hrange now
    rw [← hout.report] at hrej hbook
    have hchanged : out.report.status = .rejected → out.book ≠ b := by
      intro hs heq
      have hremoved := hout.book.trans (hbook hs)
      rw [heq] at hremoved
      have hnone := RefBook.find_remove b.reference id
      rw [← hremoved, href] at hnone
      cases hnone
    constructor
    · rintro ⟨out', hrun', hsame⟩ ⟨-, -, -, hp⟩
      rw [hrun] at hrun'
      cases hrun'
      have hs := hrej.mpr hp
      exact hchanged hs (hsame hs).2
    · intro hnot
      refine ⟨out, hrun, fun hs => ?_⟩
      obtain ⟨p, hp, hle⟩ := hrej.mp hs
      exfalso
      refine hnot ⟨?_, ⟨i, hfind⟩, hq', p, hp, hle⟩
      rintro rfl
      have := Approach.inRange_pos hrep (hrange p hp)
      omega

/-- The array book refuses price zero up front and keeps the order. -/
theorem rejected_amend_changes_nothing_array :
    ∃ (b : Approach.array.Book) (out : Outcome Approach.array.Levels),
      Approach.array.Reachable .int64 (fun _ => True) b ∧
      b.amendOrder .int64 1 5 (some 0) (fun _ => 0) = some out ∧
      out.report.status = .rejected ∧ out.trades = [] ∧ out.book = b := by
  obtain ⟨replies, b, hrun, hrej⟩ := Approach.session_ends
    (P := fun b => (b.amendOrder .int64 1 5 (some 0) (fun _ => 0)).map
      (fun out => out.report.status) = some .rejected)
    (show ((Approach.array.session .int64 1 90 110 4 .none
      [(.add ⟨1, 100, 5, 0, 0, 1, 7, .buy, .limit, .gtc⟩, fun _ => 0)]).any _) = true by
        decide +kernel)
  have hb : Approach.array.Reachable .int64 (fun _ => True) b :=
    Approach.reachable_of_session (fun _ _ => trivial) hrun
  obtain ⟨out, hout, hsame⟩ := (rejected_amend_changes_nothing_iff .int64 .array b hb 1 5 (some 0)
    fun _ => 0).mpr fun h => h.1 rfl
  rw [hout] at hrej
  have hstatus := Option.some.inj hrej
  exact ⟨b, out, hb, hout, hstatus, hsame hstatus⟩

/-- The map book rejects price zero only once the order is gone. -/
theorem rejected_amend_loses_order :
    ∃ (b : Approach.map.Book) (out : Outcome Approach.map.Levels),
      Approach.map.Reachable .int64 (fun _ => True) b ∧
      b.resting .buy = [⟨1, 100, 5, 5, 0, 1, 7, .buy, .limit, .gtc⟩] ∧
      b.amendOrder .int64 1 5 (some 0) (fun _ => 0) = some out ∧
      out.report = .reject 1 .invalidPrice ∧ out.book.resting .buy = [] ∧ out.book ≠ b := by
  obtain ⟨replies, b, hrun, hrest, hlost⟩ := Approach.session_ends
    (P := fun b => b.resting .buy = [⟨1, 100, 5, 5, 0, 1, 7, .buy, .limit, .gtc⟩] ∧
      (b.amendOrder .int64 1 5 (some 0) (fun _ => 0)).map
        (fun out => (out.report, out.book.resting .buy)) = some (.reject 1 .invalidPrice, []))
    (show ((Approach.map.session .int64 1 90 110 4 .none
      [(.add ⟨1, 100, 5, 0, 0, 1, 7, .buy, .limit, .gtc⟩, fun _ => 0)]).any _) = true by
        decide +kernel)
  obtain ⟨out, hout, hpair⟩ := Option.map_eq_some_iff.mp hlost
  obtain ⟨hreport, hempty⟩ := Prod.mk.inj hpair
  refine ⟨b, out, Approach.reachable_of_session (fun _ _ => trivial) hrun, hrest, hout, hreport,
    hempty, ?_⟩
  rintro rfl
  rw [hempty] at hrest
  cases hrest

end LightningLob
