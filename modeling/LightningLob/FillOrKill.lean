import LightningLob.CallEffects
import Mathlib.Algebra.Order.BigOperators.Group.List

/-! # Fill-or-kill under self-trade prevention

    `add_order` decides a FOK order by a dry run over the level aggregates,
    which cannot see whose orders they are, and then matches it.  Where
    self-trade prevention takes makers out of the match, the two decisions can
    differ; this module says exactly when they do not. -/

namespace LightningLob

/-! ## Section 1: What a taker can really trade with -/

/-- The makers that self-trade prevention lets the taker reach: all of them,
    those of others, or those ahead of the first one of its own. -/
def tradable (policy : SelfTradePrevention) (taker : Order) (makers : List Order) : List Order :=
  match policy with
  | .none => makers
  | .cancelResting => makers.filter fun o => ¬ selfTrade policy taker o
  | .cancelIncoming | .cancelBoth => makers.takeWhile fun o => ¬ selfTrade policy taker o

section folding

variable {policy : SelfTradePrevention} {taker maker : Order} {rem : Int} {makers : List Order}
  {r : Fold}

theorem quantityOf_cons (o : Order) (os : List Order) :
    quantityOf (o :: os) = o.remainingQuantity + quantityOf os := by
  simp [quantityOf]

theorem quantityOf_append (xs ys : List Order) :
    quantityOf (xs ++ ys) = quantityOf xs + quantityOf ys := by
  simp [quantityOf]

theorem quantityOf_nonneg {os : List Order} (h : ∀ o ∈ os, 0 < o.remainingQuantity) :
    0 ≤ quantityOf os := by
  refine List.sum_nonneg ?_
  intro x hx
  obtain ⟨o, ho, rfl⟩ := List.mem_map.mp hx
  exact Int.le_of_lt (h o ho)

theorem tradable_cons (h : selfTrade policy taker maker = false) :
    tradable policy taker (maker :: makers) = maker :: tradable policy taker makers := by
  cases policy <;> simp [tradable, h]

theorem mem_of_mem_tradable {o : Order} (h : o ∈ tradable policy taker makers) : o ∈ makers := by
  cases policy with
  | none => exact h
  | cancelResting => exact List.mem_of_mem_filter h
  | cancelIncoming | cancelBoth => exact (List.takeWhile_sublist _).mem h

/-- The fold exhausts the taker exactly when there is enough it can trade with. -/
theorem Folds.filled_iff (h : Folds policy taker rem makers r)
    (hpos : ∀ m ∈ makers, 0 < m.remainingQuantity) (hrem : 0 ≤ rem) :
    r.remaining = 0 ↔ rem ≤ quantityOf (tradable policy taker makers) := by
  have hsum : 0 ≤ quantityOf (tradable policy taker makers) :=
    quantityOf_nonneg fun o ho => hpos o (mem_of_mem_tradable ho)
  -- induction on the fold; the sum is only taken over makers it can trade with
  induction h with
  | nil =>
    have : tradable policy taker [] = [] := by cases policy <;> rfl
    rw [this]
    simp only [quantityOf, List.map_nil, List.sum_nil]
    omega
  | spent => simp only; omega
  | @skip rem maker makers r hpos' hself hpol hr ih =>
    subst hpol
    have : tradable .cancelResting taker (maker :: makers) =
        tradable .cancelResting taker makers := by simp [tradable, hself]
    rw [this] at hsum ⊢
    exact ih (fun m hm => hpos m (by simp [hm])) hrem hsum
  -- the taker meets its own order: nothing from here on is tradable
  | stop hpos' hself hpol | both hpos' hself hpol =>
    subst hpol
    simp only [tradable, hself, List.takeWhile_cons, quantityOf]
    simp
    omega
  | @fill rem maker makers r hpos' hself hle hr ih =>
    -- the first maker is taken whole, from both sides of the inequality
    have htail : ∀ m ∈ makers, 0 < m.remainingQuantity := fun m hm => hpos m (by simp [hm])
    have := ih htail (by omega) (quantityOf_nonneg fun o ho => htail o (mem_of_mem_tradable ho))
    rw [tradable_cons hself, quantityOf_cons]
    simp only
    omega
  | @part rem maker makers hpos' hself hlt =>
    have htail : 0 ≤ quantityOf (tradable policy taker makers) :=
      quantityOf_nonneg fun o ho => hpos o (by simp [mem_of_mem_tradable ho])
    rw [tradable_cons hself, quantityOf_cons]
    simp only [true_iff]
    omega

theorem Folds.rest_length_le (h : Folds policy taker rem makers r) :
    r.rest.length ≤ makers.length := by
  induction h with
  | nil | spent | stop => simp
  | skip _ _ _ _ ih => simpa using Nat.le_succ_of_le ih
  | both => simp
  | fill _ _ _ _ ih => simpa using Nat.le_succ_of_le ih
  | part => simp

/-- A fold that leaves its makers as they were, though it had some, was
    stopped by the first of them. -/
theorem Folds.stopped (h : Folds policy taker rem makers r) (hrem : 0 < rem)
    (hmakers : makers ≠ []) (hsame : r.rest = makers) :
    policy = .cancelIncoming ∧ ∃ o, makers.head? = some o ∧ selfTrade policy taker o = true := by
  cases h with
  | nil => exact (hmakers rfl).elim
  | spent hle => omega
  -- a maker fewer is left
  | skip _ _ _ hr =>
    have hlen := hr.rest_length_le
    rw [show _ = _ from hsame] at hlen
    simp at hlen
  | stop _ hself hpol => exact ⟨hpol, _, rfl, hself⟩
  | both => simp at hsame
  | fill _ _ _ hr =>
    have hlen := hr.rest_length_le
    rw [show _ = _ from hsame] at hlen
    simp at hlen
  | @part maker makers =>
    -- the first maker is left with less
    have hq := congrArg Order.remainingQuantity (List.cons.inj hsame).1
    simp only at hq
    omega

end folding

/-! ## Section 2: What the dry run promises -/

section dry_run

variable {pf : Platform} {taker : Order}

/-- The orders of a level have one price. -/
theorem groups_price {os g : List Order} (hg : g ∈ groups os) :
    ∃ p, g.head?.map Order.price = some p ∧ ∀ o ∈ g, o.price = p := by
  have hchain := List.isChain_of_mem_splitBy hg
  obtain ⟨x, xs, rfl⟩ := List.exists_cons_of_ne_nil (List.ne_nil_of_mem_splitBy hg)
  have htrans : IsTrans Order fun a b => (a.price == b.price) = true :=
    ⟨fun a b c hab hbc => by simp only [beq_iff_eq] at *; omega⟩
  have hpair := List.isChain_iff_pairwise.mp hchain
  refine ⟨x.price, rfl, ?_⟩
  intro o ho
  rcases List.mem_cons.mp ho with rfl | ho
  · rfl
  · have := (List.pairwise_cons.mp hpair).1 o ho
    simp only [beq_iff_eq] at this
    exact this.symm

/-- The dry run's limit check is the reference's. -/
theorem reaches_of_not_limit {price : Int}
    (h : ¬ (taker.type = .limit ∧ better taker.side.opposite taker.price price = true)) :
    reaches taker price = true := by
  cases ht : taker.type with
  | market => simp [reaches, ht]
  | limit =>
    cases hs : taker.side <;> simpa [reaches, priceOk, better, Side.opposite, ht, hs] using h

/-- The dry run passes only if the makers within reach have the quantity: an
    aggregate that wraps only loses. -/
theorem liquid_le (needed : Int) (gs : List (List Order))
    (hgs : ∀ g ∈ gs, ∃ p, g.head?.map Order.price = some p ∧ ∀ o ∈ g, o.price = p)
    (hpos : ∀ g ∈ gs, ∀ o ∈ g, 0 < o.remainingQuantity) (sum : Int) (hsum : 0 ≤ sum)
    (h : liquid pf taker.side.opposite taker.type taker.price needed (pf.wrap sum)
      (gs.map (levelView pf)) = true) :
    needed ≤ sum + quantityOf (reachable taker gs.flatten) := by
  -- `sum` is the exact sum so far, of which the code holds the wrapped value
  induction gs generalizing sum with
  | nil => cases h
  | cons g gs ih =>
    obtain ⟨p, hhead, hprice⟩ := hgs g (by simp)
    have hview : (levelView pf g).price = p := by simp [levelView, hhead]
    simp only [List.map_cons, liquid, hview] at h
    by_cases hlimit : taker.type = .limit ∧ better taker.side.opposite taker.price p = true
    · rw [if_pos hlimit] at h
      cases h
    rw [if_neg hlimit] at h
    have hreach : ∀ o ∈ g, reaches taker o.price = true := by
      intro o ho
      rw [hprice o ho]
      exact reaches_of_not_limit hlimit
    -- the code adds two wrapped numbers and wraps again
    have hwrap : pf.wrap (pf.wrap sum + (levelView pf g).totalQuantity) =
        pf.wrap (sum + quantityOf g) := by
      rw [pf.wrap_add, Int.add_comm, show (levelView pf g).totalQuantity = pf.wrap (quantityOf g)
        from rfl, pf.wrap_add, Int.add_comm]
    have hg : 0 ≤ quantityOf g := quantityOf_nonneg (hpos g (by simp))
    have hrest : 0 ≤ quantityOf (reachable taker gs.flatten) := by
      refine quantityOf_nonneg fun o ho => ?_
      obtain ⟨g', hg', ho'⟩ := List.mem_flatten.mp (List.mem_of_mem_filter ho)
      exact hpos g' (by simp [hg']) o ho'
    rw [hwrap] at h
    rw [List.flatten_cons, (reachable_append gs.flatten hreach).1, quantityOf_append]
    by_cases henough : pf.wrap (sum + quantityOf g) ≥ needed
    -- wrapping a sum that is not negative does not raise it
    · have := pf.wrap_le (sum + quantityOf g) (by omega)
      omega
    · rw [if_neg henough] at h
      have := ih (fun g' hg' => hgs g' (by simp [hg'])) (fun g' hg' => hpos g' (by simp [hg']))
        (sum + quantityOf g) (by omega) h
      omega

/-- The dry run on a book. -/
theorem quantity_le_of_liquid {nz : Prop} {r : RefBook} (h : r.Sound nz) {needed : Int}
    (hliquid : liquid pf taker.side.opposite taker.type taker.price needed 0
      (depthOf pf (r.orders taker.side.opposite)) = true) :
    needed ≤ quantityOf (reachable taker (r.orders taker.side.opposite)) := by
  have hflat : (groups (r.orders taker.side.opposite)).flatten = r.orders taker.side.opposite :=
    List.flatten_splitBy _ _
  rw [← pf.wrap_zero] at hliquid
  have hle := liquid_le needed (groups (r.orders taker.side.opposite))
    (fun g hg => groups_price hg)
    (fun g hg o ho =>
      (h.placed _ o (by rw [← hflat]; exact List.mem_flatten_of_mem hg ho)).open_pos)
    0 le_rfl hliquid
  rw [hflat] at hle
  omega

end dry_run

/-! ## Section 3: An order stopped by its own first maker -/

section stopped

variable {S : Type} [LevelStore S] [LawfulLevelStore S] {pf : Platform} {nz : Prop}
  {b : OrderBook S} {qs : Side → List (List Nat)}

/-- Under CancelIncoming a taker whose first reachable maker is its own leaves
    the book as it was. -/
theorem BookRep.match_stop (h : BookRep pf nz b qs) {taker : Order} (now : Clock)
    (hrem : 0 < taker.remainingQuantity) (hpol : b.stpPolicy = .cancelIncoming) {o : Order}
    (hhead : (reachable taker (b.resting taker.side.opposite)).head? = some o)
    (hself : selfTrade b.stpPolicy taker o = true) :
    b.matchAgainstBook pf taker now = some (true, taker, [], b) := by
  have hside := h.sides taker.side.opposite
  have hprio : Priority taker.side.opposite (b.resting taker.side.opposite) := h.sound.priority _
  rw [h.resting_eq] at hhead hprio
  cases hqs : qs taker.side.opposite with
  | nil => rw [hqs] at hhead; cases hhead
  | cons q qs' =>
    rw [hqs] at hside hhead hprio
    obtain ⟨l, ls, hl, -, hview⟩ := List.forall₂_cons_right_iff.mp hside.levels
    obtain ⟨i, q, rfl⟩ := List.exists_cons_of_ne_nil hl.ne
    have hprice := (hl.placed i (by simp)).price_eq
    rw [show ((i :: q) :: qs').flatten.map b.pool.orderAt =
      b.pool.orderAt i :: (q ++ qs'.flatten).map b.pool.orderAt from rfl] at hhead hprio
    -- if any maker is within reach, the first one of the side is
    have hreach : reaches taker (b.pool.orderAt i).price = true := by
      by_contra hc
      rw [(reachable_eq_nil (hprio.out_of_reach (by simpa using hc))).1] at hhead
      cases hhead
    have ho : b.pool.orderAt i = o := by
      rw [reachable, List.filter_cons_of_pos (by simpa using hreach)] at hhead
      exact Option.some.inj hhead
    rw [← ho] at hself
    have hlimit : ¬ (taker.type = .limit ∧ ¬ priceOk taker l.price = true) := by
      rintro ⟨htype, hok⟩
      rw [hprice] at hreach
      simp [reaches, htype, hok] at hreach
    have hdrain : drainLevel pf b.stpPolicy b.symbol l.price now (b.pool.nodes.length + 1) l
        ⟨taker, b.pool, b.idIndex, []⟩ = some (true, l, ⟨taker, b.pool, b.idIndex, []⟩) :=
      drainLevel_kill hl.rep.queue.head hrem (drainStep_keep hl.rep hself hpol)
    -- the level is written back unchanged
    have hput := LawfulLevelStore.putFront_same hside.wf hview (by simp [hl.rep.queue.count])
    have hloop : matchLoop pf b.stpPolicy b.symbol taker.side.opposite now
        (b.pool.nodes.length + 1) (b.levels taker.side.opposite) ⟨taker, b.pool, b.idIndex, []⟩ =
          some (true, b.levels taker.side.opposite, ⟨taker, b.pool, b.idIndex, []⟩) := by
      rw [matchLoop, if_pos hrem, LawfulLevelStore.front_eq hside.wf, hview]
      simp only [List.head?_cons, Option.map_some, Option.bind_eq_bind, Option.bind_some,
        if_neg hlimit, hdrain, hput]
      rfl
    simp only [OrderBook.matchAgainstBook, hloop, Option.bind_eq_bind, Option.bind_some]
    cases taker.side <;> rfl

end stopped

/-! ## Section 4: Exactly when FOK is all-or-nothing -/

/-- What the caller of a FOK order is promised: all of it, or nothing at all
    and the book as it was. -/
def AllOrNothing {S : Type} (b : OrderBook S) (order : Order) (out : Outcome S) : Prop :=
  (out.report.status = .filled ∧ out.report.filledQuantity = order.quantity) ∨
    (out.report.status = .cancelled ∧ out.report.filledQuantity = 0 ∧ out.trades = [] ∧
      out.book = b)

/-- The dry run kills the order; or the makers it reaches and that self-trade
    prevention lets it trade with have the quantity; or CancelIncoming stops it
    at the first maker it reaches. -/
def FokSafe {S : Type} [LevelStore S] [LawfulLevelStore S] (pf : Platform) (b : OrderBook S)
    (order : Order) : Prop :=
  b.hasLiquidityFor pf order.side order.type order.price order.quantity = some false ∨
    order.quantity ≤ quantityOf
      (tradable b.stpPolicy order (reachable order (b.resting order.side.opposite))) ∨
    b.stpPolicy = .cancelIncoming ∧
      ∃ o, (reachable order (b.resting order.side.opposite)).head? = some o ∧
        selfTrade b.stpPolicy order o = true

section fok

variable {S : Type} [LevelStore S] [LawfulLevelStore S] {pf : Platform} {nz : Prop}
  {b : OrderBook S} {qs : Side → List (List Nat)} {order : Order} {now : Clock}

/-- An order that cannot rest, past the dry run: filled if the fold exhausts it,
    else what is left is discarded. -/
theorem RefBook.execute_immediate (r : RefBook) (hrests : order.restsInBook = false) :
    (r.execute order.opened now).report =
      if (r.matched order.opened).remaining = 0 then
        ⟨order.id, .filled, order.quantity, 0, .none⟩
      else
        ⟨order.id, .cancelled, order.quantity - (r.matched order.opened).remaining, 0, .none⟩ := by
  have hrests' : order.opened.restsInBook = false := hrests
  unfold RefBook.execute
  by_cases hrem : (r.matched order.opened).remaining = 0
  · simp [hrem]
  · simp [hrem, hrests']

/-- The match exhausts an order exactly when the makers it may trade with have
    the quantity. -/
theorem BookRep.exhausted_iff (h : BookRep pf nz b qs) (hqty : 0 < order.quantity) :
    (b.reference.matched order.opened).remaining = 0 ↔ order.quantity ≤ quantityOf
      (tradable b.stpPolicy order (reachable order (b.resting order.side.opposite))) := by
  rw [RefBook.matched_opened]
  exact (fold_folds _ _ _ _).filled_iff
    (fun m hm => (h.sound.placed _ m (List.mem_of_mem_filter hm)).open_pos) (Int.le_of_lt hqty)

/-- A FOK order stopped by its own first maker changes nothing. -/
theorem BookRep.fok_stop (h : BookRep pf nz b qs) (hfok : order.timeInForce = .fok)
    (hvalid : b.rejectReason order = some none) (hlive : b.fokKilled pf order = some false)
    (hpol : b.stpPolicy = .cancelIncoming) {o : Order}
    (hhead : (reachable order (b.resting order.side.opposite)).head? = some o)
    (hself : selfTrade b.stpPolicy order o = true) :
    b.addOrder pf order now = some ⟨⟨order.id, .cancelled, 0, 0, .none⟩, [], b⟩ := by
  have hqty : 0 < order.quantity := by
    rw [h.rejectReason_eq] at hvalid
    exact (RefBook.rejectReason_eq_none.mp (Option.some.inj hvalid)).1
  have hmatch : b.matchAgainstBook pf order.opened now = some (true, order.opened, [], b) :=
    h.match_stop now hqty hpol hhead hself
  have henter : order.opened.type = .market ∨ order.opened.timeInForce = .fok ∨
      b.crosses order.opened = true := Or.inr (Or.inl hfok)
  have hne : order.quantity ≠ 0 := by omega
  simp only [OrderBook.addOrder, hvalid, hlive, Option.bind_eq_bind, Option.bind_some,
    OrderBook.execute, OrderBook.matchStep, if_pos henter, hmatch]
  simp [OrderBook.conclude, Order.opened, hne]

/-- An order past the dry run that has left the book as it was met its own
    order first. -/
theorem BookRep.stopped_of_unchanged (h : BookRep pf nz b qs) (now : Clock)
    (hqty : 0 < order.quantity)
    (hliquid : order.quantity ≤ quantityOf (reachable order (b.resting order.side.opposite)))
    (hsame : (b.reference.execute order.opened now).book.orders order.side.opposite =
      b.resting order.side.opposite) :
    b.stpPolicy = .cancelIncoming ∧
      ∃ o, (reachable order (b.resting order.side.opposite)).head? = some o ∧
        selfTrade b.stpPolicy order o = true := by
  have hfold := fold_folds b.stpPolicy order order.quantity
    (reachable order (b.resting order.side.opposite))
  refine hfold.stopped hqty ?_ ?_
  · intro hnil
    rw [hnil] at hliquid
    simp only [quantityOf, List.map_nil, List.sum_nil] at hliquid
    omega
  · have hsplit := Priority.split (h.sound.priority order.side.opposite)
    have hopp := RefBook.execute_opposite b.reference order.opened now (Int.le_of_lt hqty)
    rw [RefBook.matched_opened] at hopp
    exact List.append_cancel_right ((hopp.symm.trans hsame).trans hsplit.symm)

end fok

/-- **FOK**: in every reachable book, a FOK order that passes validation is
    all-or-nothing exactly when it is safe.  This is said of the source while
    fewer than `2 ^ 32 - 1` orders rest. -/
theorem fok_all_or_nothing_iff (pf : Platform) (k : Approach) (b : k.Book)
    (hb : k.Reachable pf (fun _ => True) b) (order : Order) (now : Clock)
    (hfok : order.timeInForce = .fok) (hvalid : b.rejectReason order = some none) :
    (∃ out, b.addOrder pf order now = some out ∧ AllOrNothing b order out) ↔
      FokSafe pf b order := by
  obtain ⟨qs, hrep⟩ : b.Valid pf False := hb.valid fun _ _ hz => hz.elim
  have hdry := hrep.hasLiquidityFor_eq order.side order.type order.price order.quantity
  have hvalid' : b.reference.rejectReason order = none := by
    rw [hrep.rejectReason_eq] at hvalid
    exact Option.some.inj hvalid
  have hqty := (RefBook.rejectReason_eq_none.mp hvalid').1
  cases hliquid : liquid pf order.side.opposite order.type order.price order.quantity 0
      (depthOf pf (b.resting order.side.opposite)) with
  | false =>
    -- killed by the dry run
    rw [hliquid] at hdry
    refine iff_of_true ⟨⟨⟨order.id, .cancelled, 0, 0, .none⟩, [], b⟩, ?_,
      Or.inr ⟨rfl, rfl, rfl, rfl⟩⟩ (Or.inl hdry)
    simp [OrderBook.addOrder, hvalid, OrderBook.fokKilled, hfok, hdry]
  | true =>
    rw [hliquid] at hdry
    have hlive : b.fokKilled pf order = some false := by
      simp [OrderBook.fokKilled, hfok, hdry]
    obtain ⟨out, hrun, href⟩ := hrep.addOrder_spec order now False.elim
    have hlive' : b.reference.fokKilled pf order = false := by
      rw [hrep.fokKilled_eq] at hlive
      exact Option.some.inj hlive
    rw [RefBook.addOrder_accepted hvalid' hlive'] at href
    have hreport := href.report
    rw [RefBook.execute_immediate b.reference (by simp [Order.restsInBook, hfok])] at hreport
    have hfilled := hrep.exhausted_iff hqty
    constructor
    · rintro ⟨out', hrun', hall⟩
      rw [hrun] at hrun'
      cases hrun'
      by_cases hrem : (b.reference.matched order.opened).remaining = 0
      · exact Or.inr (Or.inl (hfilled.mp hrem))
      · rw [if_neg hrem] at hreport
        rcases hall with ⟨hstatus, -⟩ | ⟨-, -, -, hbook⟩
        · rw [hreport] at hstatus
          cases hstatus
        · refine Or.inr (Or.inr (hrep.stopped_of_unchanged now hqty
            (quantity_le_of_liquid hrep.sound hliquid) ?_))
          rw [← href.book, hbook]
          rfl
    · rintro (hkilled | henough | ⟨hpol, o, hhead, hself⟩)
      · rw [hdry] at hkilled
        cases hkilled
      · rw [if_pos (hfilled.mpr henough)] at hreport
        exact ⟨out, hrun, Or.inl (by rw [hreport]; exact ⟨rfl, rfl⟩)⟩
      · exact ⟨_, hrep.fok_stop hfok hvalid hlive hpol hhead hself, Or.inr ⟨rfl, rfl, rfl, rfl⟩⟩

/-- Without self-trade prevention every FOK order is safe. -/
theorem fokSafe_of_no_prevention {pf : Platform} {k : Approach} {ok : Call → Prop} {b : k.Book}
    (hb : k.Reachable pf ok b) (hpol : b.stpPolicy = .none) (order : Order) :
    FokSafe pf b order := by
  obtain ⟨qs, hrep⟩ : b.Valid pf False := hb.valid fun _ _ hz => hz.elim
  have hdry := hrep.hasLiquidityFor_eq order.side order.type order.price order.quantity
  cases hliquid : liquid pf order.side.opposite order.type order.price order.quantity 0
      (depthOf pf (b.resting order.side.opposite)) with
  | false => exact Or.inl (hdry.trans (by rw [hliquid]))
  | true =>
    refine Or.inr (Or.inl ?_)
    rw [hpol]
    exact quantity_le_of_liquid hrep.sound hliquid

/-- Enough quantity of others behind an order of its own: filled. -/
theorem fok_all_or_nothing_past_own_order :
    ∃ (b : Approach.vector.Book) (out : Outcome Approach.vector.Levels),
      Approach.vector.Reachable .int64 (fun _ => True) b ∧
      b.addOrder .int64 ⟨3, 101, 5, 0, 0, 1, 9, .buy, .limit, .fok⟩ (fun _ => 0) = some out ∧
      AllOrNothing b ⟨3, 101, 5, 0, 0, 1, 9, .buy, .limit, .fok⟩ out := by
  obtain ⟨replies, b, hrun, hvalid, hpolicy, hsell⟩ := Approach.session_ends
    (P := fun b => b.rejectReason ⟨3, 101, 5, 0, 0, 1, 9, .buy, .limit, .fok⟩ = some none ∧
      b.stpPolicy = .cancelResting ∧
      b.resting .sell = [⟨1, 100, 5, 5, 0, 1, 9, .sell, .limit, .gtc⟩,
        ⟨2, 101, 5, 5, 0, 1, 7, .sell, .limit, .gtc⟩])
    (show ((Approach.vector.session .int64 1 90 110 4 .cancelResting
      [(.add ⟨1, 100, 5, 0, 0, 1, 9, .sell, .limit, .gtc⟩, fun _ => 0),
       (.add ⟨2, 101, 5, 0, 0, 1, 7, .sell, .limit, .gtc⟩, fun _ => 0)]).any _) = true by
        decide +kernel)
  have hb : Approach.vector.Reachable .int64 (fun _ => True) b :=
    Approach.reachable_of_session (fun _ _ => trivial) hrun
  obtain ⟨out, hout, hall⟩ := (fok_all_or_nothing_iff .int64 .vector b hb _ (fun _ => 0) rfl
    hvalid).mpr (Or.inr (Or.inl (by
      rw [hpolicy, show Side.opposite _ = .sell from rfl, hsell]
      decide +kernel)))
  exact ⟨b, out, hb, hout, hall⟩

/-- The dry run counts an ask of the order's own participant, the match drops
    it: the order is reported cancelled with part of it filled. -/
theorem fok_partially_filled :
    ∃ (b : Approach.map.Book) (out : Outcome Approach.map.Levels),
      Approach.map.Reachable .int64 (fun _ => True) b ∧
      b.rejectReason ⟨3, 101, 8, 0, 0, 1, 9, .buy, .limit, .fok⟩ = some none ∧
      b.addOrder .int64 ⟨3, 101, 8, 0, 0, 1, 9, .buy, .limit, .fok⟩ (fun _ => 0) = some out ∧
      out.report = ⟨3, .cancelled, 3, 0, .none⟩ ∧
      ¬ AllOrNothing b ⟨3, 101, 8, 0, 0, 1, 9, .buy, .limit, .fok⟩ out := by
  obtain ⟨replies, b, hrun, hvalid, hreport⟩ := Approach.session_ends
    (P := fun b => b.rejectReason ⟨3, 101, 8, 0, 0, 1, 9, .buy, .limit, .fok⟩ = some none ∧
      (b.addOrder .int64 ⟨3, 101, 8, 0, 0, 1, 9, .buy, .limit, .fok⟩ (fun _ => 0)).map
        Outcome.report = some ⟨3, .cancelled, 3, 0, .none⟩)
    (show ((Approach.map.session .int64 1 90 110 4 .cancelResting
      [(.add ⟨1, 100, 3, 0, 0, 1, 7, .sell, .limit, .gtc⟩, fun _ => 0),
       (.add ⟨2, 100, 5, 0, 0, 1, 9, .sell, .limit, .gtc⟩, fun _ => 0)]).any _) = true by
        decide +kernel)
  obtain ⟨out, hout, hreport'⟩ := Option.map_eq_some_iff.mp hreport
  refine ⟨b, out, Approach.reachable_of_session (fun _ _ => trivial) hrun, hvalid, hout,
    hreport', ?_⟩
  rintro (⟨hstatus, -⟩ | ⟨-, hfilled, -⟩)
  · rw [hreport'] at hstatus
    cases hstatus
  · rw [hreport'] at hfilled
    cases hfilled

end LightningLob
