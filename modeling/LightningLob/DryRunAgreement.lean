import LightningLob.ExactAggregates

/-! # The dry run and the match agree

    A FOK order is let into the match by a walk over the level aggregates; an
    IOC order by `crosses`.  With exact quantities, and where self-trade
    prevention has no say, the two are filled together, and then by the same
    match. -/

namespace LightningLob

/-! ## Section 1: Matching does not look at the time in force -/

def Order.withTif (tif : TimeInForce) (o : Order) : Order := { o with timeInForce := tif }

def Matching.withTif (tif : TimeInForce) (m : Matching) : Matching :=
  { m with taker := m.taker.withTif tif }

section matching

variable (pf : Platform) (policy : SelfTradePrevention) (symbol : SymbolId) (now : Clock)
  (tif : TimeInForce)

theorem dropMaker_withTif (level : PriceLevel) (m : Matching) (idx : Nat) (id : OrderId) :
    dropMaker pf level (m.withTif tif) idx id =
      (dropMaker pf level m idx id).map fun x => (x.1, x.2.withTif tif) := by
  unfold dropMaker Matching.withTif
  simp only [Option.bind_eq_bind]
  cases levelUnlink level m.pool idx with
  | none => rfl
  | some x =>
    simp only [Option.bind_some]
    cases m.idIndex.erase id with
    | none => rfl
    | some y =>
      simp only [Option.bind_some]
      cases x.2.release pf idx <;> rfl

theorem drainStep_withTif (price : Int) (level : PriceLevel) (m : Matching) (idx : Nat) :
    drainStep pf policy symbol price now level (m.withTif tif) idx =
      (drainStep pf policy symbol price now level m idx).map
        fun x => (x.1, x.2.1, x.2.2.withTif tif) := by
  unfold drainStep
  simp only [Option.bind_eq_bind]
  rw [show (m.withTif tif).pool = m.pool from rfl]
  cases m.pool.get idx with
  | none => rfl
  | some node =>
    simp only [Option.bind_some]
    rw [show selfTrade policy (m.withTif tif).taker node.order =
      selfTrade policy m.taker node.order from rfl]
    by_cases hself : selfTrade policy m.taker node.order = true
    · simp only [if_pos hself]
      split
      · rw [dropMaker_withTif]
        cases dropMaker pf _ m idx node.order.id <;> rfl
      · rfl
    · simp only [if_neg hself]
      rw [show (m.withTif tif).taker.remainingQuantity = m.taker.remainingQuantity from rfl]
      cases levelReduceQuantity pf level m.pool idx _ with
      | none => rfl
      | some x =>
        simp only [Option.bind_some]
        split
        · -- the maker is filled and leaves the queue
          have hdrop : ∀ m₁ m₂ : Matching, m₂ = m₁.withTif tif →
              ((dropMaker pf x.1 m₂ idx node.order.id).bind fun y => pure (false, y.1, y.2)) =
                ((dropMaker pf x.1 m₁ idx node.order.id).bind fun y => pure (false, y.1, y.2)).map
                  fun y : Bool × PriceLevel × Matching => (y.1, y.2.1, y.2.2.withTif tif) := by
            rintro m₁ _ rfl
            rw [dropMaker_withTif]
            cases dropMaker pf x.1 m₁ idx node.order.id <;> rfl
          exact hdrop _ _ rfl
        · rfl

theorem drainLevel_withTif (price : Int) (fuel : Nat) (level : PriceLevel) (m : Matching) :
    drainLevel pf policy symbol price now fuel level (m.withTif tif) =
      (drainLevel pf policy symbol price now fuel level m).map
        fun x => (x.1, x.2.1, x.2.2.withTif tif) := by
  induction fuel generalizing level m with
  | zero => rfl
  | succ fuel ih =>
    simp only [drainLevel, Option.bind_eq_bind]
    cases level.head with
    | none => rfl
    | some idx =>
      simp only [drainStep_withTif,
        show (m.withTif tif).taker.remainingQuantity = m.taker.remainingQuantity from rfl]
      split
      · cases drainStep pf policy symbol price now level m idx with
        | none => rfl
        | some x =>
          simp only [Option.map_some, Option.bind_some]
          cases x.1 with
          | true => rfl
          | false => exact ih x.2.1 x.2.2
      · rfl

theorem matchLoop_withTif {S : Type} [LevelStore S] (side : Side) (fuel : Nat) (levels : S)
    (m : Matching) : matchLoop pf policy symbol side now fuel levels (m.withTif tif) =
      (matchLoop pf policy symbol side now fuel levels m).map
        fun x => (x.1, x.2.1, x.2.2.withTif tif) := by
  induction fuel generalizing levels m with
  | zero => rfl
  | succ fuel ih =>
    simp only [matchLoop, Option.bind_eq_bind,
      show (m.withTif tif).taker.remainingQuantity = m.taker.remainingQuantity from rfl,
      show (m.withTif tif).taker.type = m.taker.type from rfl,
      show ∀ p, priceOk (m.withTif tif).taker p = priceOk m.taker p from fun _ => rfl,
      show (m.withTif tif).pool = m.pool from rfl, drainLevel_withTif]
    split
    · cases LevelStore.front side levels with
      | none => rfl
      | some best =>
        simp only [Option.bind_some]
        cases best with
        | none => rfl
        | some best =>
          simp only
          split
          · rfl
          · cases drainLevel pf policy symbol best.1 now (m.pool.nodes.length + 1) best.2 m with
            | none => rfl
            | some x =>
              simp only [Option.map_some, Option.bind_some]
              cases LevelStore.putFront side levels x.2.1 with
              | none => rfl
              | some levels' =>
                simp only [Option.bind_some]
                cases x.1 with
                | true => rfl
                | false => exact ih levels' x.2.2
    · rfl

theorem matchAgainstBook_withTif {S : Type} [LevelStore S] (b : OrderBook S) (taker : Order) :
    b.matchAgainstBook pf (taker.withTif tif) now =
      (b.matchAgainstBook pf taker now).map fun x => (x.1, x.2.1.withTif tif, x.2.2) := by
  have hloop := matchLoop_withTif pf b.stpPolicy b.symbol now tif taker.side.opposite
    (b.pool.nodes.length + 1) (b.levels taker.side.opposite)
    { taker := taker, pool := b.pool, idIndex := b.idIndex }
  unfold OrderBook.matchAgainstBook
  simp only [Option.bind_eq_bind]
  refine (congrArg (Option.bind · _) hloop).trans ?_
  cases matchLoop pf b.stpPolicy b.symbol taker.side.opposite now (b.pool.nodes.length + 1)
    (b.levels taker.side.opposite) { taker := taker, pool := b.pool, idIndex := b.idIndex } <;> rfl

end matching

/-! ## Section 2: FOK and IOC -/

/-- No maker can be a self-trade for the order: there is no prevention, the
    order is nobody's, or its participant has nothing on the opposite side. -/
def CannotSelfTrade {S : Type} [LevelStore S] [LawfulLevelStore S] (b : OrderBook S)
    (order : Order) : Prop :=
  b.stpPolicy = .none ∨ order.participantId = kNoParticipant ∨
    ∀ o ∈ b.resting order.side.opposite, o.participantId ≠ order.participantId

theorem tradable_eq_self {policy : SelfTradePrevention} {taker : Order} {makers : List Order}
    (h : ∀ o ∈ makers, selfTrade policy taker o = false) :
    tradable policy taker makers = makers := by
  induction makers with
  | nil => cases policy <;> rfl
  | cons o os ih =>
    rw [tradable_cons (h o (by simp)), ih fun x hx => h x (by simp [hx])]

section agreement

variable {pf : Platform} {nz : Prop} {k : Approach} {b : k.Book} {qs : Side → List (List Nat)}
  {order : Order}

theorem CannotSelfTrade.selfTrade_eq (h : CannotSelfTrade b order) :
    ∀ o ∈ b.resting order.side.opposite, selfTrade b.stpPolicy order o = false := by
  intro o ho
  unfold selfTrade
  rw [decide_eq_false_iff_not]
  rintro ⟨hpolicy, hparticipant, hsame⟩
  rcases h with h | h | h
  · exact hpolicy h
  · exact hparticipant h
  · exact h o ho hsame.symm

/-- `add_order` on a book that stands for its reference. -/
theorem BookRep.addOrder_eq (h : BookRep pf nz b qs) (order : Order) (now : Clock) :
    b.addOrder pf order now = match b.reference.rejectReason order with
      | some reason => some ⟨.reject order.id reason, [], b⟩
      | none =>
          if b.reference.fokKilled pf order then
            some ⟨⟨order.id, .cancelled, 0, 0, .none⟩, [], b⟩
          else
            b.execute pf order.opened now := by
  simp only [OrderBook.addOrder, h.rejectReason_eq, h.fokKilled_eq, Option.bind_eq_bind,
    Option.bind_some]
  cases b.reference.rejectReason order <;> rfl

theorem BookRep.fokKilled_fok (b : k.Book) (order : Order) :
    b.reference.fokKilled pf (order.withTif .fok) =
      !liquid pf order.side.opposite order.type order.price order.quantity 0
        (depthOf pf (b.resting order.side.opposite)) := by
  simp [RefBook.fokKilled, Order.withTif]

/-- An IOC order is filled only if there is enough within reach. -/
theorem BookRep.ioc_filled (h : BookRep pf nz b qs) (hself : CannotSelfTrade b order)
    (hioc : order.timeInForce = .ioc) (hok : b.reference.rejectReason order = none) (now : Clock)
    (hstatus : (b.reference.addOrder pf order now).report.status = .filled) :
    order.quantity ≤ quantityOf (reachable order (b.resting order.side.opposite)) := by
  have htradable : tradable b.stpPolicy order (reachable order (b.resting order.side.opposite)) =
      reachable order (b.resting order.side.opposite) :=
    tradable_eq_self fun o ho => hself.selfTrade_eq o (List.mem_filter.mp ho).1
  have hfilled := h.exhausted_iff (RefBook.rejectReason_eq_none.mp hok).1
  rw [htradable] at hfilled
  rw [RefBook.addOrder_accepted hok (by simp [RefBook.fokKilled, hioc]),
    RefBook.execute_immediate _ (by simp [Order.restsInBook, hioc])] at hstatus
  refine hfilled.mp ?_
  by_contra hne
  rw [if_neg hne] at hstatus
  cases hstatus

/-- An order with something within reach enters the match. -/
theorem BookRep.crosses_of_reach (h : BookRep pf nz b qs)
    (hne : reachable order (b.resting order.side.opposite) ≠ []) :
    order.type = .market ∨ b.crosses order = true := by
  cases ht : order.type with
  | market => exact .inl rfl
  | limit =>
    right
    by_contra hc
    exact hne (h.reachable_of_not_crosses ht (by simpa using hc)).1

/-- An order that enters the match as IOC goes through it as it would as FOK. -/
theorem execute_withTif (now : Clock) (henter : order.type = .market ∨ b.crosses order = true) :
    b.execute pf (order.withTif .fok) now = b.execute pf (order.withTif .ioc) now := by
  have hfok : (order.withTif .fok).type = .market ∨ (order.withTif .fok).timeInForce = .fok ∨
      b.crosses (order.withTif .fok) = true := .inr (.inl rfl)
  have hioc : (order.withTif .ioc).type = .market ∨ (order.withTif .ioc).timeInForce = .fok ∨
      b.crosses (order.withTif .ioc) = true := henter.imp_right Or.inr
  unfold OrderBook.execute OrderBook.matchStep
  rw [if_pos hfok, if_pos hioc, matchAgainstBook_withTif, matchAgainstBook_withTif]
  cases b.matchAgainstBook pf order now with
  | none => rfl
  | some x =>
    -- neither rests, so what is left is discarded alike
    simp only [Option.map_some, Option.bind_eq_bind, Option.bind_some, OrderBook.conclude]
    simp [Order.restsInBook, Order.withTif]

end agreement

/-- **The dry run and the match agree.**  With exact quantities, in every
    reachable book, take any order that cannot trade with its own participant.
    As FOK it is reported Filled exactly when it is as IOC, and then both calls
    return the same report, emit the same trades and leave the same book.  This
    is said of the source while fewer than `2 ^ 32 - 1` orders rest. -/
theorem fok_filled_iff_ioc_filled (pf : Platform) (hexact : ∀ x, pf.wrap x = x) (k : Approach)
    (b : k.Book) (hb : k.Reachable pf (fun _ => True) b) (order : Order) (now : Clock)
    (hself : CannotSelfTrade b order) :
    ∃ fok ioc, b.addOrder pf (order.withTif .fok) now = some fok ∧
      b.addOrder pf (order.withTif .ioc) now = some ioc ∧
      (fok.report.status = .filled ↔ ioc.report.status = .filled) ∧
      (fok.report.status = .filled →
        fok.report = ioc.report ∧ fok.trades = ioc.trades ∧ fok.book = ioc.book) := by
  obtain ⟨qs, hrep⟩ : b.Valid pf False := hb.valid fun _ _ hz => hz.elim
  obtain ⟨ioc, hioc, href⟩ := hrep.addOrder_spec (order.withTif .ioc) now False.elim
  have hfok := hrep.addOrder_eq (order.withTif .fok) now
  have hsame := hrep.addOrder_eq (order.withTif .ioc) now
  rw [show b.reference.rejectReason (order.withTif .fok) = b.reference.rejectReason order from rfl,
    BookRep.fokKilled_fok] at hfok
  rw [show b.reference.rejectReason (order.withTif .ioc) = b.reference.rejectReason order from rfl,
    show b.reference.fokKilled pf (order.withTif .ioc) = false from rfl, hioc] at hsame
  cases hreject : b.reference.rejectReason order with
  | some reason =>
    rw [hreject] at hfok hsame
    exact ⟨ioc, ioc, hfok.trans hsame.symm, hioc, Iff.rfl, fun _ => ⟨rfl, rfl, rfl⟩⟩
  | none =>
    rw [hreject] at hfok hsame
    have hqty := (RefBook.rejectReason_eq_none.mp hreject).1
    -- both decisions come down to what is within reach
    have hreach := hrep.liquid_iff order hqty (fun _ _ => hexact _) (fun _ _ => hexact _)
    cases hliquid : liquid pf order.side.opposite order.type order.price order.quantity 0
        (depthOf pf (b.resting order.side.opposite)) with
    | false =>
      rw [hliquid] at hfok hreach
      refine ⟨_, ioc, hfok, hioc, ⟨fun hc => ?_, fun hc => ?_⟩, fun hc => ?_⟩
      · cases hc
      · rw [href.report] at hc
        have hself' : CannotSelfTrade b (order.withTif .ioc) := hself
        have hok' : b.reference.rejectReason (order.withTif .ioc) = none := hreject
        have henough := hrep.ioc_filled hself' rfl hok' now hc
        exact absurd (hreach.mpr henough) (by simp)
      · cases hc
    | true =>
      rw [hliquid] at hfok hreach
      have hne : reachable order (b.resting order.side.opposite) ≠ [] := by
        intro hnil
        have hle := hreach.mp rfl
        rw [hnil] at hle
        simp only [quantityOf, List.map_nil, List.sum_nil] at hle
        omega
      have hmatch : b.execute pf (order.opened.withTif .fok) now = _ :=
        execute_withTif now (hrep.crosses_of_reach hne)
      exact ⟨ioc, ioc, hfok.trans (hmatch.trans hsame.symm), hioc, Iff.rfl,
        fun _ => ⟨rfl, rfl, rfl⟩⟩

/-- Exactly what is there up to the limit, on two levels. -/
theorem fok_filled_iff_ioc_filled_two_levels :
    ∃ (b : Approach.vector.Book) (fok ioc : Outcome Approach.vector.Levels),
      Approach.vector.Reachable .exact (fun _ => True) b ∧
      b.addOrder .exact ⟨3, 101, 8, 0, 0, 1, 9, .buy, .limit, .fok⟩ (fun _ => 0) = some fok ∧
      b.addOrder .exact ⟨3, 101, 8, 0, 0, 1, 9, .buy, .limit, .ioc⟩ (fun _ => 0) = some ioc ∧
      fok.report.status = .filled ∧ fok.trades = ioc.trades ∧ fok.book = ioc.book := by
  obtain ⟨replies, b, hrun, hsell, hstatus⟩ := Approach.session_ends
    (P := fun b => b.resting .sell = [⟨1, 100, 5, 5, 0, 1, 7, .sell, .limit, .gtc⟩,
        ⟨2, 101, 3, 3, 0, 1, 7, .sell, .limit, .gtc⟩] ∧
      (b.addOrder .exact ⟨3, 101, 8, 0, 0, 1, 9, .buy, .limit, .fok⟩ (fun _ => 0)).map
        (fun out => out.report.status) = some .filled)
    (show ((Approach.vector.session .exact 1 90 110 4 .cancelBoth
      [(.add ⟨1, 100, 5, 0, 0, 1, 7, .sell, .limit, .gtc⟩, fun _ => 0),
       (.add ⟨2, 101, 3, 0, 0, 1, 7, .sell, .limit, .gtc⟩, fun _ => 0)]).any _) = true by
        decide +kernel)
  have hb : Approach.vector.Reachable .exact (fun _ => True) b :=
    Approach.reachable_of_session (fun _ _ => trivial) hrun
  obtain ⟨fok, ioc, hfok, hioc, -, hsame⟩ := fok_filled_iff_ioc_filled .exact (fun _ => rfl)
    .vector b hb ⟨3, 101, 8, 0, 0, 1, 9, .buy, .limit, .gtc⟩ (fun _ => 0) (by
      refine .inr (.inr ?_)
      rw [show Side.opposite _ = .sell from rfl, hsell]
      decide)
  have hfok' : b.addOrder .exact ⟨3, 101, 8, 0, 0, 1, 9, .buy, .limit, .fok⟩ (fun _ => 0) =
      some fok := hfok
  rw [hfok'] at hstatus
  have hfilled : fok.report.status = .filled := Option.some.inj hstatus
  obtain ⟨-, htrades, hbook⟩ := hsame hfilled
  exact ⟨b, fok, ioc, hb, hfok', hioc, hfilled, htrades, hbook⟩

end LightningLob
