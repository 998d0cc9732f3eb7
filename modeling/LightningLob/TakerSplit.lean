import LightningLob.Accounting

/-! # Splitting a taker

    An order that cannot rest, sent as one or as two orders of the same total
    quantity: the second of the two goes on exactly where the first stopped,
    whether that was between two makers, in the middle of one, at a self-trade
    or at the limit price. -/

namespace LightningLob

/-! ## Section 1: Quantities cut in two -/

/-- `whole` is `first` followed by `second`, but the last quantity of `first`
    and the first of `second` may be one quantity of `whole`. -/
def Cut {K : Type} (whole first second : List (K × Int)) : Prop :=
  whole = first ++ second ∨
    ∃ before key q q' after, whole = before ++ (key, q + q') :: after ∧
      first = before ++ [(key, q)] ∧ second = (key, q') :: after

section cutting

variable {K : Type} {whole first second : List (K × Int)}

theorem Cut.cons (h : Cut whole first second) (x : K × Int) :
    Cut (x :: whole) (x :: first) second := by
  rcases h with rfl | ⟨before, key, q, q', after, rfl, rfl, rfl⟩
  · exact .inl rfl
  · exact .inr ⟨x :: before, key, q, q', after, rfl, rfl, rfl⟩

/-- The total of any keys is not changed by cutting. -/
theorem Cut.total (h : Cut whole first second) (p : K → Bool) :
    ((whole.filter fun x => p x.1).map Prod.snd).sum =
      ((first.filter fun x => p x.1).map Prod.snd).sum +
        ((second.filter fun x => p x.1).map Prod.snd).sum := by
  rcases h with rfl | ⟨before, key, q, q', after, rfl, rfl, rfl⟩
  · simp
  · cases hp : p key with
    | true => simp [hp]; omega
    | false => simp [hp]

end cutting

/-! ## Section 2: The fold, cut in two -/

/-- Who a maker is, in the words of a trade. -/
def Order.maker (o : Order) : OrderId × ParticipantId × Int := (o.id, o.participantId, o.price)

/-- Who a trade was with, and for how much. -/
def Trade.fill (t : Trade) : (OrderId × ParticipantId × Int) × Int :=
  ((t.makerOrderId, t.makerParticipantId, t.price), t.quantity)

/-- The fills of a fold, in the same words. -/
def Fold.against (f : Fold) : List ((OrderId × ParticipantId × Int) × Int) :=
  f.fills.map fun x => (x.1.maker, x.2)

section folding

variable {policy : SelfTradePrevention} {taker : Order}

/-- A fold that has nothing to take leaves everything. -/
theorem fold_spent {rem : Int} (h : rem ≤ 0) (makers : List Order) :
    fold policy taker rem makers = ⟨[], [], makers, rem, false⟩ := by
  cases makers <;> simp [fold, h]

/-- **Folding in two parts**: the second fold goes on over what the first one
    left. -/
theorem fold_cut (taker : Order) (hpol : policy ≠ .cancelBoth) {c : Int} (hc : 0 < c)
    (makers : List Order) :
    ∀ {a : Int}, 0 ≤ a →
      (fold policy taker (a + c) makers).rest =
          (fold policy taker c (fold policy taker a makers).rest).rest ∧
        Cut (fold policy taker (a + c) makers).against (fold policy taker a makers).against
          (fold policy taker c (fold policy taker a makers).rest).against := by
  induction makers with
  | nil => intro a _; exact ⟨rfl, .inl rfl⟩
  | cons m ms ih =>
    intro a ha
    rcases Int.lt_or_eq_of_le ha with hpos | hzero
    swap
    · -- the first part has nothing to take
      subst hzero
      rw [fold_spent le_rfl, Int.zero_add]
      exact ⟨rfl, .inl rfl⟩
    have hsum : ¬ a + c ≤ 0 := by omega
    have ha' : ¬ a ≤ 0 := by omega
    have hc' : ¬ c ≤ 0 := by omega
    by_cases hself : selfTrade policy taker m = true
    · cases policy with
      | none => rw [selfTrade_none] at hself; cases hself
      | cancelBoth => exact (hpol rfl).elim
      | cancelResting =>
        obtain ⟨hrest, hcut⟩ := ih ha
        simp only [fold, if_neg hsum, if_neg ha', if_pos hself]
        exact ⟨hrest, hcut⟩
      | cancelIncoming =>
        -- both parts, and the whole, stop at the self-trade
        simp only [fold, if_neg hsum, if_neg ha', if_neg hc', if_pos hself]
        exact ⟨trivial, .inl rfl⟩
    · by_cases hle : m.remainingQuantity ≤ a
      · -- the first part takes the maker whole
        have hle' : m.remainingQuantity ≤ a + c := by omega
        obtain ⟨hrest, hcut⟩ := ih (a := a - m.remainingQuantity) (by omega)
        rw [show a - m.remainingQuantity + c = a + c - m.remainingQuantity by omega] at hrest hcut
        simp only [fold, if_neg hsum, if_neg ha', if_neg hself, if_pos hle, if_pos hle']
        exact ⟨hrest, hcut.cons _⟩
      · -- the first part ends in the middle of the maker
        have hself' : ¬ selfTrade policy taker
            { m with remainingQuantity := m.remainingQuantity - a } = true := hself
        have hfirst : fold policy taker a (m :: ms) = ⟨[(m, a)], [],
            { m with remainingQuantity := m.remainingQuantity - a } :: ms, 0, false⟩ := by
          simp only [fold, if_neg ha', if_neg hself, if_neg hle]
        rw [hfirst]
        by_cases hall : m.remainingQuantity ≤ a + c
        · have hall' : m.remainingQuantity - a ≤ c := by omega
          simp only [fold, if_neg hsum, if_neg hc', if_neg hself, if_neg hself', if_pos hall,
            if_pos hall', show c - (m.remainingQuantity - a) = a + c - m.remainingQuantity by omega]
          refine ⟨trivial, .inr ⟨[], m.maker, a, m.remainingQuantity - a, _, ?_, rfl, rfl⟩⟩
          rw [show a + (m.remainingQuantity - a) = m.remainingQuantity by omega]
          rfl
        · have hall' : ¬ m.remainingQuantity - a ≤ c := by omega
          simp only [fold, if_neg hsum, if_neg hc', if_neg hself, if_neg hself', if_neg hall,
            if_neg hall', show m.remainingQuantity - a - c = m.remainingQuantity - (a + c) by omega]
          exact ⟨trivial, .inr ⟨[], m.maker, a, c, [], rfl, rfl, rfl⟩⟩

end folding

/-! ## Section 3: On the reference book -/

/-- The order under another id and for another quantity. -/
def Order.sized (order : Order) (id : OrderId) (quantity : Int) : Order :=
  { order with id := id, quantity := quantity }

namespace RefBook

section splitting

variable {r : RefBook} {order : Order}

theorem setOrders_setOrders (r : RefBook) (side : Side) (os os' : List Order) :
    (r.setOrders side os).setOrders side os' = r.setOrders side os' := by
  unfold setOrders
  rw [Function.update_idem]

/-- What an order that cannot rest matches. -/
theorem matched_sized (r : RefBook) (order : Order) (id : OrderId) (quantity : Int) :
    r.matched (order.sized id quantity).opened =
      fold r.policy order quantity (reachable order (r.orders order.side.opposite)) := by
  have hwho : (order.sized id quantity).participantId = order.participantId := rfl
  rw [matched_opened, fold_congr r.policy hwho]
  rfl

/-- The makers that an order leaves within its reach are those that its fold
    leaves. -/
theorem reachable_left (r : RefBook) (order : Order) (quantity : Int) (os : List Order) :
    reachable order ((fold r.policy order quantity (reachable order os)).rest ++
        beyond order os) = (fold r.policy order quantity (reachable order os)).rest ∧
      beyond order ((fold r.policy order quantity (reachable order os)).rest ++
        beyond order os) = beyond order os := by
  have hrest : ∀ o ∈ (fold r.policy order quantity (reachable order os)).rest,
      reaches order o.price = true := by
    intro o ho
    obtain ⟨m, hm, hleaves⟩ := (fold_folds _ _ _ _).rest_spec ho
    have hreach := (List.mem_filter.mp hm).2
    rw [hleaves.eq]
    exact hreach
  have hbeyond : ∀ o ∈ beyond order os, ¬ reaches order o.price = true := by
    intro o ho
    simpa using (List.mem_filter.mp ho).2
  generalize (fold r.policy order quantity (reachable order os)).rest = left at hrest
  constructor
  · rw [reachable, List.filter_append, List.filter_eq_self.mpr hrest,
      List.filter_eq_nil_iff.mpr hbeyond, List.append_nil]
  · rw [beyond, List.filter_append]
    rw [List.filter_eq_nil_iff.mpr (by simpa using hrest), List.nil_append]
    exact List.filter_eq_self.mpr (by simpa using hbeyond)

/-- An order that cannot rest, once it is accepted. -/
theorem addOrder_immediate (pf : Platform) (now : Clock) (hok : r.rejectReason order = none)
    (htif : order.timeInForce ≠ .fok) (hrests : order.restsInBook = false) :
    (r.addOrder pf order now).book = r.afterMatch order.opened ∧
      (r.addOrder pf order now).trades =
        tradesOf r.symbol order.opened now 0 (r.matched order.opened).fills := by
  have hfok : r.fokKilled pf order = false := by simp [fokKilled, htif]
  have hrests' : order.opened.restsInBook = false := hrests
  have hqty := (rejectReason_eq_none.mp hok).1
  rw [addOrder_accepted hok hfok]
  refine ⟨?_, execute_trades r order.opened now⟩
  rw [execute_book r order.opened now (Int.le_of_lt hqty), if_neg]
  simp [hrests']

/-- **Splitting on the reference**: the whole order and its two parts leave the
    same orders, and the same quantities are taken from the makers. -/
theorem afterMatch_split (r : RefBook) (order : Order) (hpol : r.policy ≠ .cancelBoth)
    {a c : Int} (ha : 0 < a) (hc : 0 < c) (id id₁ id₂ : OrderId) :
    (r.afterMatch (order.sized id (a + c)).opened) =
        (r.afterMatch (order.sized id₁ a).opened).afterMatch (order.sized id₂ c).opened ∧
      Cut (r.matched (order.sized id (a + c)).opened).against
        (r.matched (order.sized id₁ a).opened).against
        ((r.afterMatch (order.sized id₁ a).opened).matched (order.sized id₂ c).opened).against := by
  obtain ⟨hrest, hcut⟩ := fold_cut order hpol hc
    (reachable order (r.orders order.side.opposite)) (Int.le_of_lt ha)
  have hleft : (r.afterMatch (order.sized id₁ a).opened).orders order.side.opposite =
      (fold r.policy order a (reachable order (r.orders order.side.opposite))).rest ++
        beyond order (r.orders order.side.opposite) := by
    rw [← matched_sized r order id₁ a]
    exact setOrders_same
  obtain ⟨hreach, hbeyond⟩ := reachable_left r order a (r.orders order.side.opposite)
  have hsecond : (r.afterMatch (order.sized id₁ a).opened).matched (order.sized id₂ c).opened =
      fold r.policy order c
        (fold r.policy order a (reachable order (r.orders order.side.opposite))).rest := by
    rw [matched_sized, hleft, hreach]
    rfl
  rw [matched_sized, matched_sized, hsecond]
  refine ⟨?_, hcut⟩
  -- both leave the same orders on the opposite side and touch nothing else
  have hwhole : r.afterMatch (order.sized id (a + c)).opened = r.setOrders order.side.opposite
      ((fold r.policy order (a + c) (reachable order (r.orders order.side.opposite))).rest ++
        beyond order (r.orders order.side.opposite)) := by
    rw [← matched_sized r order id (a + c)]
    rfl
  have hparts : (r.afterMatch (order.sized id₁ a).opened).afterMatch (order.sized id₂ c).opened =
      (r.afterMatch (order.sized id₁ a).opened).setOrders order.side.opposite
        ((fold r.policy order c
          (fold r.policy order a (reachable order (r.orders order.side.opposite))).rest).rest ++
          beyond order (r.orders order.side.opposite)) := by
    rw [← hsecond]
    conv_rhs => rw [← hbeyond, ← hleft]
    rfl
  rw [hwhole, hparts, hrest]
  exact (setOrders_setOrders ..).symm

/-- An order of this kind is accepted. -/
theorem accepts_sized (htype : order.type = .limit → 0 < order.price ∧ r.inRange order.price = true)
    {id : OrderId} (hfresh : ∀ o ∈ r.all, o.id ≠ id) {quantity : Int} (hq : 0 < quantity) :
    r.rejectReason (order.sized id quantity) = none :=
  rejectReason_eq_none.mpr ⟨hq, htype, find_eq_none.mpr (.inr hfresh)⟩

/-- Matching brings in no id. -/
theorem fresh_afterMatch {id : OrderId} (hfresh : ∀ o ∈ r.all, o.id ≠ id) :
    ∀ o ∈ (r.afterMatch order).all, o.id ≠ id := by
  intro o ho
  obtain ⟨side, ho⟩ := mem_all.mp ho
  obtain ⟨m, hm, hleaves⟩ := mem_afterMatch ho
  rw [hleaves.eq]
  exact hfresh m (mem_all.mpr ⟨side, hm⟩)

end splitting

end RefBook

/-! ## Section 4: On the books -/

theorem tradesOf_fill (symbol : SymbolId) (taker : Order) (now : Clock) (k : Nat)
    (fills : List (Order × Int)) :
    (tradesOf symbol taker now k fills).map Trade.fill = fills.map fun x => (x.1.maker, x.2) := by
  induction fills generalizing k with
  | nil => rfl
  | cons x xs ih =>
    rw [tradesOf, List.map_cons, List.map_cons, ih]
    rfl

theorem makerVolume_eq (id : OrderId) (trades : List Trade) :
    makerVolume id trades =
      (((trades.map Trade.fill).filter fun x => x.1.1 = id).map Prod.snd).sum := by
  unfold makerVolume
  rw [List.filter_map, List.map_map]
  rfl

/-- An order that never rests: an IOC Limit order at a price the book takes, or
    a Market order that is not FOK. -/
def OrderBook.TakesOnly {S : Type} [LevelStore S] (b : OrderBook S) (order : Order) : Prop :=
  (order.type = .limit ∧ order.timeInForce = .ioc ∧ 0 < order.price ∧
      b.inRange order.price = true) ∨
    (order.type = .market ∧ order.timeInForce ≠ .fok)

section books

variable {S : Type} [LevelStore S] [LawfulLevelStore S] {pf : Platform} {b : OrderBook S}
  {order : Order}

omit [LawfulLevelStore S] in
theorem OrderBook.TakesOnly.spec (h : b.TakesOnly order) :
    (order.type = .limit → 0 < order.price ∧ b.inRange order.price = true) ∧
      order.timeInForce ≠ .fok ∧ order.restsInBook = false := by
  rcases h with ⟨ht, htif, hprice⟩ | ⟨ht, htif⟩
  · exact ⟨fun _ => hprice, by simp [htif], by simp [Order.restsInBook, htif]⟩
  · refine ⟨fun hc => ?_, htif, by simp [Order.restsInBook, ht]⟩
    rw [ht] at hc
    cases hc

/-- Such an order with a fresh id is matched and leaves nothing of itself. -/
theorem OrderBook.Valid.take_spec (h : b.Valid pf False) (hkind : b.TakesOnly order)
    {id : OrderId} (hfresh : ∀ o ∈ b.reference.all, o.id ≠ id) {quantity : Int}
    (hq : 0 < quantity) (now : Clock) :
    ∃ out, b.addOrder pf (order.sized id quantity) now = some out ∧ out.book.Valid pf False ∧
      out.book.reference = b.reference.afterMatch (order.sized id quantity).opened ∧
      out.trades.map Trade.fill =
        (b.reference.matched (order.sized id quantity).opened).against := by
  obtain ⟨hprice, htif, hrests⟩ := hkind.spec
  obtain ⟨qs, h⟩ := h
  obtain ⟨out, hrun, href⟩ := h.addOrder_spec (order.sized id quantity) now False.elim
  have hok : b.reference.rejectReason (order.sized id quantity) = none :=
    RefBook.accepts_sized hprice hfresh hq
  obtain ⟨hbook, htrades⟩ := RefBook.addOrder_immediate pf now hok htif hrests
  refine ⟨out, hrun, href.valid, href.book.trans hbook, ?_⟩
  rw [href.trades, htrades, tradesOf_fill]
  rfl

end books

/-- **Splitting a taker changes nothing.**  Unless the policy is CancelBoth, an
    order that never rests, sent as one order or as two of the same total
    quantity, leaves the same resting orders and trades the same quantity with
    each maker; the trades themselves are the same, but that the last of the
    first part and the first of the second may be one. -/
theorem split_taker_changes_nothing (pf : Platform) (k : Approach) (b : k.Book)
    (hb : k.Reachable pf (fun _ => True) b) (hpol : b.stpPolicy ≠ .cancelBoth) (order : Order)
    (hkind : b.TakesOnly order) (a c : Int) (ha : 0 < a) (hc : 0 < c) (id id₁ id₂ : OrderId)
    (hids : ∀ x ∈ [id, id₁, id₂], ∀ side, ∀ o ∈ b.resting side, o.id ≠ x)
    (now now₁ now₂ : Clock) :
    ∃ out out₁ out₂, b.addOrder pf (order.sized id (a + c)) now = some out ∧
      b.addOrder pf (order.sized id₁ a) now₁ = some out₁ ∧
      out₁.book.addOrder pf (order.sized id₂ c) now₂ = some out₂ ∧
      out.book.resting = out₂.book.resting ∧
      (∀ maker, makerVolume maker out.trades =
        makerVolume maker out₁.trades + makerVolume maker out₂.trades) ∧
      Cut (out.trades.map Trade.fill) (out₁.trades.map Trade.fill)
        (out₂.trades.map Trade.fill) := by
  have hvalid : b.Valid pf False := hb.valid fun _ _ hz => hz.elim
  have hfresh : ∀ x ∈ [id, id₁, id₂], ∀ o ∈ b.reference.all, o.id ≠ x := by
    intro x hx o ho
    obtain ⟨side, ho⟩ := RefBook.mem_all.mp ho
    exact hids x hx side o ho
  obtain ⟨out, hrun, -, href, hfills⟩ :=
    hvalid.take_spec hkind (hfresh id (by simp)) (show 0 < a + c by omega) now
  obtain ⟨out₁, hrun₁, hvalid₁, href₁, hfills₁⟩ :=
    hvalid.take_spec hkind (hfresh id₁ (by simp)) ha now₁
  -- the second part meets the same book, less what the first took
  have hkind₁ : out₁.book.TakesOnly order := by
    have hrange : out₁.book.inRange = b.inRange := congrArg RefBook.inRange href₁
    unfold OrderBook.TakesOnly
    rw [hrange]
    exact hkind
  have hfresh₁ : ∀ o ∈ out₁.book.reference.all, o.id ≠ id₂ := by
    rw [href₁]
    exact RefBook.fresh_afterMatch (hfresh id₂ (by simp))
  obtain ⟨out₂, hrun₂, -, href₂, hfills₂⟩ := hvalid₁.take_spec hkind₁ hfresh₁ hc now₂
  obtain ⟨hbook, hcut⟩ :=
    RefBook.afterMatch_split b.reference order hpol ha hc id id₁ id₂
  rw [href₁] at href₂ hfills₂
  rw [← hfills, ← hfills₁, ← hfills₂] at hcut
  refine ⟨out, out₁, out₂, hrun, hrun₁, hrun₂, ?_, ?_, hcut⟩
  · have hsame : out.book.reference = out₂.book.reference := by rw [href, href₂, hbook]
    exact congrArg RefBook.orders hsame
  · intro maker
    rw [makerVolume_eq, makerVolume_eq, makerVolume_eq]
    exact hcut.total fun who => who.1 = maker

/-- A Market order for 9 against asks of 5 and 8, and the same in parts of 7
    and 2: the first part ends in the middle of the second ask. -/
theorem split_taker_changes_nothing_mid_maker :
    ∃ b : Approach.array.Book, Approach.array.Reachable .int64 (fun _ => True) b ∧
      ∃ out out₁ out₂,
        b.addOrder .int64 ⟨3, 0, 9, 0, 0, 1, 8, .buy, .market, .ioc⟩ (fun _ => 1) = some out ∧
        b.addOrder .int64 ⟨4, 0, 7, 0, 0, 1, 8, .buy, .market, .ioc⟩ (fun _ => 1) = some out₁ ∧
        out₁.book.addOrder .int64 ⟨5, 0, 2, 0, 0, 1, 8, .buy, .market, .ioc⟩ (fun _ => 2) =
          some out₂ ∧
        out.book.resting = out₂.book.resting ∧
        ∀ maker, makerVolume maker out.trades =
          makerVolume maker out₁.trades + makerVolume maker out₂.trades := by
  obtain ⟨replies, b, hrun, hpol, hbuy, hsell⟩ := Approach.session_ends
    (P := fun b => b.stpPolicy ≠ .cancelBoth ∧ (∀ o ∈ b.resting .buy, o.id < 3) ∧
      ∀ o ∈ b.resting .sell, o.id < 3)
    (show ((Approach.array.session .int64 1 90 110 4 .cancelResting
      [(.add ⟨1, 100, 5, 0, 0, 1, 7, .sell, .limit, .gtc⟩, fun _ => 0),
       (.add ⟨2, 101, 8, 0, 0, 1, 7, .sell, .limit, .gtc⟩, fun _ => 0)]).any _) = true by
        decide +kernel)
  have hb : Approach.array.Reachable .int64 (fun _ => True) b :=
    Approach.reachable_of_session (fun _ _ => trivial) hrun
  have hids : ∀ x ∈ [3, 4, 5], ∀ side, ∀ o ∈ b.resting side, o.id ≠ x := by
    intro x hx side o ho
    have hlt : o.id < 3 := by
      cases side with
      | buy => exact hbuy o ho
      | sell => exact hsell o ho
    have hge : ∀ x ∈ [3, 4, 5], 3 ≤ x := by decide
    exact Nat.ne_of_lt (Nat.lt_of_lt_of_le hlt (hge x hx))
  obtain ⟨out, out₁, out₂, h, h₁, h₂, hrest, hvolume, -⟩ :=
    split_taker_changes_nothing .int64 .array b hb hpol
      ⟨0, 0, 0, 0, 0, 1, 8, .buy, .market, .ioc⟩ (.inr ⟨rfl, by decide⟩) 7 2 (by decide) (by decide)
      3 4 5 hids (fun _ => 1) (fun _ => 1) fun _ => 2
  exact ⟨b, hb, out, out₁, out₂, h, h₁, h₂, hrest, hvolume⟩

/-- A Market order may be FOK: one for 6 is killed at an ask of 5, while in
    parts of 5 and 1 the first is filled. -/
theorem split_fok_market_differs :
    ∃ (b : Approach.array.Book) (out out₁ out₂ : Outcome Approach.array.Levels),
      Approach.array.Reachable .int64 Call.NonZero b ∧ b.stpPolicy = .none ∧
      b.addOrder .int64 ⟨3, 0, 6, 0, 0, 1, 8, .buy, .market, .fok⟩ (fun _ => 1) = some out ∧
      b.addOrder .int64 ⟨4, 0, 5, 0, 0, 1, 8, .buy, .market, .fok⟩ (fun _ => 1) = some out₁ ∧
      out₁.book.addOrder .int64 ⟨5, 0, 1, 0, 0, 1, 8, .buy, .market, .fok⟩ (fun _ => 2) =
        some out₂ ∧
      out.book.resting .sell ≠ out₂.book.resting .sell ∧
      makerVolume 1 out.trades ≠ makerVolume 1 out₁.trades + makerVolume 1 out₂.trades := by
  obtain ⟨replies, b, hrun, hpol, hwhole, hparts⟩ := Approach.session_ends
    (P := fun b => b.stpPolicy = .none ∧
      (b.addOrder .int64 ⟨3, 0, 6, 0, 0, 1, 8, .buy, .market, .fok⟩ (fun _ => 1)).any (fun out =>
        out.book.resting .sell ≠ [] ∧ makerVolume 1 out.trades = 0) = true ∧
      (b.addOrder .int64 ⟨4, 0, 5, 0, 0, 1, 8, .buy, .market, .fok⟩ (fun _ => 1)).any (fun out₁ =>
        (out₁.book.addOrder .int64 ⟨5, 0, 1, 0, 0, 1, 8, .buy, .market, .fok⟩ (fun _ => 2)).any
          fun out₂ => out₂.book.resting .sell = [] ∧
            makerVolume 1 out₁.trades + makerVolume 1 out₂.trades = 5) = true)
    (show ((Approach.array.session .int64 1 90 110 4 .none
      [(.add ⟨1, 100, 5, 0, 0, 1, 7, .sell, .limit, .gtc⟩, fun _ => 0)]).any _) = true by
        decide +kernel)
  obtain ⟨out, h, hout⟩ := (Option.any_eq_true _ _).mp hwhole
  obtain ⟨out₁, h₁, hout₁⟩ := (Option.any_eq_true _ _).mp hparts
  obtain ⟨out₂, h₂, hout₂⟩ := (Option.any_eq_true _ _).mp hout₁
  obtain ⟨hleft, hnone⟩ := of_decide_eq_true hout
  obtain ⟨hempty, htraded⟩ := of_decide_eq_true hout₂
  refine ⟨b, out, out₁, out₂, Approach.reachable_of_session (by decide) hrun, hpol, h, h₁, h₂, ?_,
    ?_⟩
  · rw [hempty]
    exact hleft
  · rw [hnone, htraded]
    decide

end LightningLob
