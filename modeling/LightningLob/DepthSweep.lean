import LightningLob.Accounting
import LightningLob.DepthSnapshots
import LightningLob.DryRunAgreement

/-! # Depth predicts execution

    What a depth snapshot of the opposite side promises about the next order:
    how much it trades at which prices. -/

namespace LightningLob

/-! ## Section 1: Walking a snapshot -/

/-- What an order for `q` takes from the levels it walks, best first. -/
def sweep : Int → List PriceLevelView → List (Int × Int)
  | _, [] => []
  | q, v :: vs =>
      if q ≤ 0 then [] else (v.price, min q v.totalQuantity) :: sweep (q - v.totalQuantity) vs

/-- Prices and quantities, the quantities of a run of one price added up. -/
def addUp (xs : List (Int × Int)) : List (Int × Int) :=
  (xs.splitBy fun x y => x.1 == y.1).map fun g =>
    ((g.head?.map Prod.fst).getD 0, (g.map Prod.snd).sum)

/-- What was traded at each price, in the order the prices were reached. -/
def byPrice (trades : List Trade) : List (Int × Int) :=
  addUp (trades.map fun t => (t.price, t.quantity))

/-- The quantity of a list of prices and quantities. -/
def volume (xs : List (Int × Int)) : Int := (xs.map Prod.snd).sum

/-- What the order takes from the levels of a snapshot within its limit. -/
def onOffer (order : Order) (views : List PriceLevelView) : List (Int × Int) :=
  sweep order.quantity (views.filter fun v => reaches order v.price)

/-- What a snapshot of the opposite side says an accepted order trades: a FOK
    order all of its quantity or nothing. -/
def predicted (order : Order) (views : List PriceLevelView) : List (Int × Int) :=
  if order.timeInForce = .fok ∧ volume (onOffer order views) < order.quantity then []
  else onOffer order views

/-- The snapshot of `n` levels shows all the order can take: it found no more
    levels, or it reaches past the order's limit, or it has the quantity. -/
def ShowsEnough (order : Order) (n : Nat) (views : List PriceLevelView) : Prop :=
  views.length < n ∨ (∃ v ∈ views, reaches order v.price = false) ∨
    order.quantity ≤ volume (onOffer order views)

/-- The depth of the side the order would trade with. -/
def OrderBook.oppositeDepth {S : Type} [LevelStore S] (b : OrderBook S) (order : Order) (n : Nat) :
    Run (List PriceLevelView) :=
  match order.side with
  | .buy => b.askDepth n
  | .sell => b.bidDepth n

/-- The prices and quantities of the fills. -/
def Fold.atPrices (f : Fold) : List (Int × Int) := f.fills.map fun x => (x.1.price, x.2)

section walking

variable {xs ys : List (Int × Int)} {p q : Int}

theorem sweep_spent (h : q ≤ 0) (views : List PriceLevelView) : sweep q views = [] := by
  cases views with
  | nil => rfl
  | cons v vs => exact if_pos h

/-- Levels behind those that have the quantity are not walked. -/
theorem sweep_append {vs : List PriceLevelView} (h : q ≤ volume (sweep q vs))
    (ws : List PriceLevelView) : sweep q (vs ++ ws) = sweep q vs := by
  induction vs generalizing q with
  | nil => exact sweep_spent (by simpa [sweep, volume] using h) ws
  | cons v vs ih =>
    by_cases hq : q ≤ 0
    · rw [sweep_spent hq, sweep_spent hq]
    rw [List.cons_append, sweep, sweep, if_neg hq, if_neg hq]
    by_cases hv : q ≤ v.totalQuantity
    · rw [sweep_spent (by omega), sweep_spent (by omega)]
    · rw [sweep, if_neg hq] at h
      simp only [volume, List.map_cons, List.sum_cons] at h
      rw [ih (by unfold volume; omega)]

@[simp] theorem addUp_nil : addUp [] = [] := rfl

/-- Lists without a price in common are added up one after the other. -/
theorem addUp_append (h : ∀ x ∈ xs, ∀ y ∈ ys, x.1 ≠ y.1) :
    addUp (xs ++ ys) = addUp xs ++ addUp ys := by
  unfold addUp
  rw [List.splitBy_append, List.map_append]
  intro x hx y hy
  simpa using h x (List.mem_of_getLast? hx) y (List.mem_of_head? hy)

/-- A run of one price. -/
theorem addUp_run (hne : xs ≠ []) (h : ∀ x ∈ xs, x.1 = p) : addUp xs = [(p, volume xs)] := by
  have hchain : xs.IsChain fun x y => (x.1 == y.1) = true := by
    refine (List.pairwise_of_forall_mem_list ?_).isChain
    intro x hx y hy
    simp [h x hx, h y hy]
  rw [addUp, List.splitBy_of_isChain hne hchain]
  obtain ⟨x, xs, rfl⟩ := List.exists_cons_of_ne_nil hne
  simp [volume, h x (by simp)]

/-- Adding up keeps the quantity. -/
theorem volume_addUp (xs : List (Int × Int)) : volume (addUp xs) = volume xs := by
  have hflat := List.flatten_splitBy (fun x y : Int × Int => x.1 == y.1) xs
  unfold volume addUp
  conv_rhs => rw [← hflat]
  rw [List.map_flatten, List.sum_flatten, List.map_map, List.map_map]
  rfl

end walking

/-! ## Section 2: The fold walks the levels -/

section folding

variable {policy : SelfTradePrevention} {taker : Order} {rem : Int} {makers os : List Order}
  {r : Fold} {side : Side} {pf : Platform}

/-- A taker that meets no order of its own takes all it can. -/
theorem Folds.takes (h : Folds policy taker rem makers r)
    (hself : ∀ m ∈ makers, selfTrade policy taker m = false)
    (hpos : ∀ m ∈ makers, 0 < m.remainingQuantity) (hrem : 0 ≤ rem) :
    r.killed = false ∧ r.remaining = rem - min rem (quantityOf makers) := by
  induction h with
  | nil =>
    simp only [quantityOf, List.map_nil, List.sum_nil, true_and]
    omega
  | spent hle =>
    have := quantityOf_nonneg hpos
    simp only [true_and]
    omega
  | skip _ hown | stop _ hown | both _ hown =>
    rw [hself _ (by simp)] at hown
    cases hown
  | fill _ _ hle _ ih =>
    obtain ⟨hk, hleft⟩ := ih (fun m hm => hself m (by simp [hm]))
      (fun m hm => hpos m (by simp [hm])) (by omega)
    refine ⟨hk, ?_⟩
    rw [quantityOf_cons]
    simp only
    omega
  | part _ _ hlt =>
    have := quantityOf_nonneg fun m hm => hpos m (List.mem_cons_of_mem _ hm)
    rw [quantityOf_cons]
    simp only [true_and]
    omega

theorem Folds.volume_atPrices (h : Folds policy taker rem makers r) :
    volume r.atPrices = rem - r.remaining := by
  rw [← h.fills_sum, volume, Fold.atPrices, List.map_map]
  rfl

/-- The prices of the fills are prices of makers. -/
theorem Folds.price_of_mem_atPrices (h : Folds policy taker rem makers r)
    (hpos : ∀ m ∈ makers, 0 < m.remainingQuantity) {x : Int × Int} (hx : x ∈ r.atPrices) :
    ∃ m ∈ makers, m.price = x.1 := by
  obtain ⟨f, hf, rfl⟩ := List.mem_map.mp hx
  exact ⟨f.1, (h.fill_spec hpos hf).1, rfl⟩

/-- The makers of one price are one level of the sweep. -/
theorem Folds.addUp_level (h : Folds policy taker rem makers r) {p : Int} (hne : makers ≠ [])
    (hprice : ∀ m ∈ makers, m.price = p)
    (hself : ∀ m ∈ makers, selfTrade policy taker m = false)
    (hpos : ∀ m ∈ makers, 0 < m.remainingQuantity) (hrem : 0 < rem) :
    addUp r.atPrices = [(p, min rem (quantityOf makers))] := by
  have hvolume : volume r.atPrices = min rem (quantityOf makers) := by
    rw [h.volume_atPrices, (h.takes hself hpos (Int.le_of_lt hrem)).2]
    omega
  have hopen : 0 < quantityOf makers := by
    obtain ⟨m, ms, rfl⟩ := List.exists_cons_of_ne_nil hne
    have hm := hpos m (by simp)
    have hms := quantityOf_nonneg fun o ho => hpos o (List.mem_cons_of_mem m ho)
    rw [quantityOf_cons]
    omega
  -- something is taken, so there is a fill
  have hfills : r.atPrices ≠ [] := by
    intro hnil
    rw [hnil, volume, List.map_nil, List.sum_nil] at hvolume
    omega
  rw [addUp_run hfills, hvolume]
  intro x hx
  obtain ⟨m, hm, hmx⟩ := h.price_of_mem_atPrices hpos hx
  rw [← hmx, hprice m hm]

/-- Behind the first order of a side no price is better. -/
theorem Priority.none_better {o : Order} (h : Priority side (o :: os)) :
    (o :: os).filter (fun x => better side x.price o.price) = [] := by
  rw [List.filter_eq_nil_iff]
  intro x hx
  rcases List.mem_cons.mp hx with rfl | hx
  · rw [better_irrefl]
    exact Bool.false_ne_true
  · rw [(List.pairwise_cons.mp h).1 x hx]
    exact Bool.false_ne_true

/-- The orders of a worse price than the first order's. -/
def behindBest (side : Side) (o : Order) (os : List Order) : List Order :=
  (o :: os).filter fun x => better side o.price x.price

/-- A side is the orders of its best price, then the others. -/
theorem Priority.best_first {o : Order} (h : Priority side (o :: os)) :
    ordersAt (o :: os) o.price ++ behindBest side o os = o :: os := by
  have hsplit := h.split_at o.price
  rwa [h.none_better, List.nil_append] at hsplit

/-- Its depth is the best level, then the depth of the others. -/
theorem Priority.depth_best_first {o : Order} (h : Priority side (o :: os)) (pf : Platform) :
    depthOf pf (o :: os) =
      levelView pf (ordersAt (o :: os) o.price) :: depthOf pf (behindBest side o os) := by
  have hne : ordersAt (o :: os) o.price ≠ [] := by simp [ordersAt]
  have hsplit := h.depth_split pf o.price
  rw [h.none_better, levelEntry, if_neg hne] at hsplit
  exact hsplit

theorem fold_atPrices_spent (h : rem ≤ 0) (makers : List Order) :
    (fold policy taker rem makers).atPrices = [] := by
  rw [← (Folds.spent h : Folds policy taker rem makers _).eq_fold]
  rfl

/-- The best level is taken from, and then the rest of the side by what is
    left of the taker. -/
theorem Priority.fold_best_first {o : Order} (h : Priority side (o :: os))
    (hself : ∀ m ∈ o :: os, selfTrade policy taker m = false)
    (hpos : ∀ m ∈ o :: os, 0 < m.remainingQuantity) (hrem : 0 < rem) :
    addUp (fold policy taker rem (o :: os)).atPrices =
      (o.price, min rem (quantityOf (ordersAt (o :: os) o.price))) ::
        addUp (fold policy taker (rem - quantityOf (ordersAt (o :: os) o.price))
          (behindBest side o os)).atPrices := by
  have hbest := h.best_first
  have hne : ordersAt (o :: os) o.price ≠ [] := by simp [ordersAt]
  have hat : ∀ m ∈ ordersAt (o :: os) o.price, m ∈ o :: os ∧ m.price = o.price := by
    intro m hm
    obtain ⟨hmem, hprice⟩ := List.mem_filter.mp hm
    exact ⟨hmem, by simpa using hprice⟩
  have hbehind : ∀ m ∈ behindBest side o os, m ∈ o :: os ∧ better side o.price m.price = true :=
    fun m hm => List.mem_filter.mp hm
  generalize ordersAt (o :: os) o.price = level at hbest hne hat
  generalize behindBest side o os = behind at hbest hbehind
  have hself' : ∀ m ∈ level, selfTrade policy taker m = false := fun m hm => hself m (hat m hm).1
  have hpos' : ∀ m ∈ level, 0 < m.remainingQuantity := fun m hm => hpos m (hat m hm).1
  have hf := fold_folds policy taker rem level
  obtain ⟨hk, hleft⟩ := hf.takes hself' hpos' (Int.le_of_lt hrem)
  have hlevel := hf.addUp_level hne (fun m hm => (hat m hm).2) hself' hpos' hrem
  by_cases henough : rem ≤ quantityOf level
  · -- the taker ends at the best level
    have hdone := hf.append_done (.inr (by omega)) behind
    rw [hbest] at hdone
    rw [← hdone.eq_fold, fold_atPrices_spent (by omega)]
    exact hlevel
  · -- the level is used up
    have hused : (fold policy taker rem level).remaining = rem - quantityOf level := by omega
    have hrest := fold_folds policy taker (rem - quantityOf level) behind
    have hmore := hf.append_more hk (by omega) (fold_folds policy taker _ behind)
    rw [hbest, hused] at hmore
    have hboth : (fold policy taker rem (o :: os)).atPrices =
        (fold policy taker rem level).atPrices ++
          (fold policy taker (rem - quantityOf level) behind).atPrices := by
      rw [← hmore.eq_fold]
      exact List.map_append
    rw [hboth, addUp_append, hlevel]
    · rfl
    · intro x hx y hy
      obtain ⟨m, hm, hmx⟩ := hf.price_of_mem_atPrices hpos' hx
      obtain ⟨w, hw, hwy⟩ := hrest.price_of_mem_atPrices (fun m hm => hpos m (hbehind m hm).1) hy
      rw [← hmx, ← hwy, (hat m hm).2]
      exact Ladder.ne_of_better (hbehind w hw).2

/-- **The fold sweeps the depth**: over a side in priority order it takes from
    each level in turn what a sweep of the side's depth says. -/
theorem Priority.fold_sweep (hexact : ∀ x, pf.wrap x = x) (n : Nat) :
    ∀ {os : List Order} {rem : Int}, os.length ≤ n → Priority side os →
      (∀ m ∈ os, selfTrade policy taker m = false) → (∀ m ∈ os, 0 < m.remainingQuantity) →
      addUp (fold policy taker rem os).atPrices = sweep rem (depthOf pf os) := by
  -- induction on the number of orders: behind the best level there are fewer
  induction n with
  | zero =>
    intro os rem hlen _ _ _
    rw [List.length_eq_zero_iff.mp (Nat.le_zero.mp hlen)]
    rfl
  | succ n ih =>
    intro os rem hlen hprio hself hpos
    cases os with
    | nil => rfl
    | cons o os =>
      by_cases hrem : rem ≤ 0
      · rw [sweep_spent hrem, fold_atPrices_spent hrem, addUp_nil]
      have hne : ordersAt (o :: os) o.price ≠ [] := by simp [ordersAt]
      have hshorter : (behindBest side o os).length ≤ n := by
        have hcount := congrArg List.length hprio.best_first
        have := List.length_pos_iff.mpr hne
        rw [List.length_append] at hcount
        omega
      have hsub : ∀ m ∈ behindBest side o os, m ∈ o :: os := fun m => List.mem_of_mem_filter
      rw [hprio.depth_best_first pf, sweep, if_neg hrem, levelView_price pf hne,
        show (levelView pf (ordersAt (o :: os) o.price)).totalQuantity = _ from hexact _,
        hprio.fold_best_first hself hpos (by omega),
        ih hshorter (hprio.filter _) (fun m hm => hself m (hsub m hm)) fun m hm =>
          hpos m (hsub m hm)]

/-- The depth within reach is the depth of what is within reach. -/
theorem Priority.depth_reachable (h : Priority taker.side.opposite os) (pf : Platform) :
    depthOf pf (reachable taker os) =
      (depthOf pf os).filter fun v => reaches taker v.price := by
  have hin : ∀ v ∈ depthOf pf (reachable taker os), reaches taker v.price = true := by
    intro v hv
    obtain ⟨o, ho, hov⟩ := price_of_mem_depthOf hv
    rw [← hov]
    exact (List.mem_filter.mp ho).2
  have hout : ∀ v ∈ depthOf pf (beyond taker os), ¬ reaches taker v.price = true := by
    intro v hv
    obtain ⟨o, ho, hov⟩ := price_of_mem_depthOf hv
    rw [← hov]
    simpa using (List.mem_filter.mp ho).2
  conv_rhs => rw [← h.split]
  rw [depthOf_append, List.filter_append, List.filter_eq_self.mpr hin,
    List.filter_eq_nil_iff.mpr hout, List.append_nil]
  intro x hx y hy hxy
  have hreach := (List.mem_filter.mp hx).2
  rw [hxy] at hreach
  have hnot := (List.mem_filter.mp hy).2
  simp [hreach] at hnot

theorem tradesOf_prices (symbol : SymbolId) (taker : Order) (now : Clock) (k : Nat)
    (f : Fold) : byPrice (tradesOf symbol taker now k f.fills) = addUp f.atPrices := by
  have hprices : ∀ (k : Nat) (fills : List (Order × Int)),
      (tradesOf symbol taker now k fills).map (fun t => (t.price, t.quantity)) =
        fills.map fun x => (x.1.price, x.2) := by
    intro k fills
    induction fills generalizing k with
    | nil => rfl
    | cons x fills ih =>
      obtain ⟨m, q⟩ := x
      exact congrArg _ (ih (k + 1))
  rw [byPrice, hprices]
  rfl

end folding

/-! ## Section 3: The book -/

section books

variable {pf : Platform} {nz : Prop} {k : Approach} {b : k.Book} {qs : Side → List (List Nat)}
  {order : Order}

theorem BookRep.oppositeDepth_eq (h : BookRep pf nz b qs) (order : Order) (n : Nat) :
    b.oppositeDepth order n = (LevelStore.reserve k.Levels n).map fun _ =>
      (depthOf pf (b.resting order.side.opposite)).take n := by
  have hdepth := h.depth_eq order.side.opposite n
  unfold OrderBook.oppositeDepth OrderBook.askDepth OrderBook.bidDepth
  cases hs : order.side
  all_goals
    rw [hs, Side.opposite, OrderBook.levels] at hdepth
    simp only [hdepth]
    cases LevelStore.reserve k.Levels n <;> rfl

/-- A snapshot that shows enough is as good as the full depth. -/
theorem BookRep.onOffer_eq (h : BookRep pf nz b qs) {n : Nat}
    (hshows : ShowsEnough order n ((depthOf pf (b.resting order.side.opposite)).take n)) :
    onOffer order (depthOf pf (b.resting order.side.opposite)) =
      onOffer order ((depthOf pf (b.resting order.side.opposite)).take n) := by
  have hordered := h.depth_ordered order.side.opposite
  generalize depthOf pf (b.resting order.side.opposite) = views at hshows hordered
  have hsplit : views.filter (fun v => reaches order v.price) =
      (views.take n).filter (fun v => reaches order v.price) ++
        (views.drop n).filter fun v => reaches order v.price := by
    rw [← List.filter_append, List.take_append_drop]
  unfold onOffer
  rw [hsplit]
  rcases hshows with hall | ⟨v, hv, hbeyond⟩ | henough
  · -- every level is listed
    rw [List.drop_eq_nil_of_le (by rw [List.length_take] at hall; omega), List.filter_nil,
      List.append_nil]
  · -- what is not listed is worse than a level beyond the limit
    have hnone : (views.drop n).filter (fun v => reaches order v.price) = [] := by
      rw [List.filter_eq_nil_iff]
      intro w hw hreach
      rw [← List.take_append_drop n views] at hordered
      have hbetter := (List.pairwise_append.mp hordered).2.2 v hv w hw
      rw [reaches_of_not_better (better_asymm hbetter) hreach] at hbeyond
      cases hbeyond
    rw [hnone, List.append_nil]
  · exact sweep_append henough _

/-- What the match takes is what a sweep of the depth says. -/
theorem BookRep.addUp_matched (h : BookRep pf nz b qs) (hexact : ∀ x, pf.wrap x = x)
    (hself : CannotSelfTrade b order) :
    addUp (b.reference.matched order.opened).atPrices =
      onOffer order (depthOf pf (b.resting order.side.opposite)) := by
  have hprio : Priority order.side.opposite (b.resting order.side.opposite) := h.sound.priority _
  rw [RefBook.matched_opened, onOffer, ← hprio.depth_reachable pf]
  refine Priority.fold_sweep hexact _ le_rfl (hprio.filter _) ?_ ?_
  · intro m hm
    exact hself.selfTrade_eq m (List.mem_of_mem_filter hm)
  · intro m hm
    exact (h.sound.placed _ m (List.mem_of_mem_filter hm)).open_pos

/-- The dry run passes exactly when the snapshot has the quantity. -/
theorem BookRep.fokKilled_iff (h : BookRep pf nz b qs) (hexact : ∀ x, pf.wrap x = x)
    (hself : CannotSelfTrade b order) (hqty : 0 < order.quantity) :
    b.reference.fokKilled pf order = true ↔ order.timeInForce = .fok ∧
      volume (onOffer order (depthOf pf (b.resting order.side.opposite))) < order.quantity := by
  have hliquid := h.liquid_iff order hqty (fun _ _ => hexact _) (fun _ _ => hexact _)
  have hfold := fold_folds b.stpPolicy order order.quantity
    (reachable order (b.resting order.side.opposite))
  have htakes := (hfold.takes (fun m hm => hself.selfTrade_eq m (List.mem_of_mem_filter hm))
    (fun m hm => (h.sound.placed _ m (List.mem_of_mem_filter hm)).open_pos)
    (Int.le_of_lt hqty)).2
  have hvolume : volume (onOffer order (depthOf pf (b.resting order.side.opposite))) =
      min order.quantity (quantityOf (reachable order (b.resting order.side.opposite))) := by
    rw [← h.addUp_matched hexact hself, volume_addUp, RefBook.matched_opened]
    refine hfold.volume_atPrices.trans ?_
    omega
  rw [hvolume, RefBook.fokKilled, decide_eq_true_eq, OrderBook.reference_orders, hliquid]
  refine and_congr_right fun _ => ?_
  omega

/-- What an accepted order is reported to have filled. -/
theorem RefBook.execute_filled (r : RefBook) (order : Order) (now : Clock) :
    (r.execute order now).report.filledQuantity =
      order.quantity - (r.matched order).remaining := by
  unfold RefBook.execute
  by_cases h₁ : (r.matched order).remaining = 0
  · simp only [h₁, if_true]
  by_cases h₂ : ¬ (r.matched order).killed = true ∧ order.restsInBook = true
  · simp only [if_neg h₁, if_pos h₂]
  · simp only [if_neg h₁, if_neg h₂]

end books

/-- **Depth predicts execution.**  In every book reached, with quantities read
    as exact integers, take an order that cannot trade with its own participant
    and passes the checks, and any depth snapshot of the opposite side that
    shows all it can take.  What the order trades at each price, and in all, is
    what the snapshot says; and there is a snapshot of any number of levels that
    a vector of them can hold.  This is said of the source while fewer than
    `2 ^ 32 - 1` orders rest. -/
theorem depth_predicts_execution (pf : Platform) (hexact : ∀ x, pf.wrap x = x) (k : Approach)
    (b : k.Book) (hb : k.Reachable pf (fun _ => True) b) (order : Order) (now : Clock) (n : Nat)
    (hself : CannotSelfTrade b order) (hok : b.rejectReason order = some none) :
    ∃ out, b.addOrder pf order now = some out ∧
      (n ≤ kMaxViews → ∃ views, b.oppositeDepth order n = some views) ∧
      ∀ views, b.oppositeDepth order n = some views → ShowsEnough order n views →
        byPrice out.trades = predicted order views ∧
          out.report.filledQuantity = volume (predicted order views) := by
  obtain ⟨qs, hrep⟩ : b.Valid pf False := hb.valid fun _ _ hz => hz.elim
  obtain ⟨out, hrun, href⟩ := hrep.addOrder_spec order now False.elim
  rw [hrep.rejectReason_eq] at hok
  have hok := Option.some.inj hok
  refine ⟨out, hrun, ?_, ?_⟩
  · intro hn
    exact ⟨_, by rw [hrep.oppositeDepth_eq, k.reserve_eq hn]; rfl⟩
  intro views hviews hshows
  obtain ⟨-, -, rfl⟩ :=
    Option.map_eq_some_iff.mp ((hrep.oppositeDepth_eq order n).symm.trans hviews)
  have hfok := hrep.fokKilled_iff hexact hself (RefBook.rejectReason_eq_none.mp hok).1
  have hmatched := hrep.addUp_matched hexact hself
  rw [hrep.onOffer_eq hshows] at hfok hmatched
  rw [href.trades, href.report, predicted]
  cases hkilled : b.reference.fokKilled pf order with
  | true =>
    -- the dry run and the snapshot both find too little
    rw [if_pos (hfok.mp hkilled)]
    simp only [RefBook.addOrder, hok, hkilled, if_true]
    exact ⟨rfl, rfl⟩
  | false =>
    have hlive : ¬ (order.timeInForce = .fok ∧ _ < order.quantity) := fun hc => by
      rw [hfok.mpr hc] at hkilled
      cases hkilled
    rw [if_neg hlive, RefBook.addOrder_accepted hok hkilled, RefBook.execute_trades,
      RefBook.execute_filled, tradesOf_prices, ← hmatched, volume_addUp]
    refine ⟨rfl, ?_⟩
    have hfold := fold_folds b.reference.policy order.opened order.opened.remainingQuantity
      (reachable order.opened (b.reference.orders order.opened.side.opposite))
    exact hfold.volume_atPrices.symm

/-- Two asks at one price and one behind them, of three levels two shown: the
    bid takes the first level and half of the second. -/
theorem depth_predicts_execution_two_levels :
    ∃ (b : Approach.array.Book) (out : Outcome Approach.array.Levels),
      Approach.array.Reachable .exact (fun _ => True) b ∧
      b.askDepth 2 = some [⟨100, 8, 2⟩, ⟨101, 4, 1⟩] ∧
      b.addOrder .exact ⟨5, 102, 10, 0, 0, 1, 9, .buy, .limit, .gtc⟩ (fun _ => 0) = some out ∧
      byPrice out.trades = [(100, 8), (101, 2)] ∧ out.report.filledQuantity = 10 := by
  let order : Order := ⟨5, 102, 10, 0, 0, 1, 9, .buy, .limit, .gtc⟩
  obtain ⟨replies, b, hrun, hdepth, hok, hsell⟩ := Approach.session_ends
    (P := fun b => b.askDepth 2 = some [⟨100, 8, 2⟩, ⟨101, 4, 1⟩] ∧
      b.rejectReason order = some none ∧ ∀ o ∈ b.resting .sell, o.participantId ≠ 9)
    (show ((Approach.array.session .exact 1 90 110 4 .cancelBoth
      [(.add ⟨1, 100, 5, 0, 0, 1, 7, .sell, .limit, .gtc⟩, fun _ => 0),
       (.add ⟨2, 101, 4, 0, 0, 1, 7, .sell, .limit, .gtc⟩, fun _ => 0),
       (.add ⟨3, 100, 3, 0, 0, 1, 8, .sell, .limit, .gtc⟩, fun _ => 0),
       (.add ⟨4, 103, 9, 0, 0, 1, 8, .sell, .limit, .gtc⟩, fun _ => 0)]).any _) = true by
        decide +kernel)
  have hb : Approach.array.Reachable .exact (fun _ => True) b :=
    Approach.reachable_of_session (fun _ _ => trivial) hrun
  obtain ⟨out, hadd, -, hsays⟩ := depth_predicts_execution .exact (fun _ => rfl)
    .array b hb order (fun _ => 0) 2 (.inr (.inr hsell)) hok
  have hshown : b.oppositeDepth order 2 = some [⟨100, 8, 2⟩, ⟨101, 4, 1⟩] := hdepth
  -- the snapshot has the quantity
  obtain ⟨htrades, hfilled⟩ := hsays _ hshown (.inr (.inr (by decide)))
  exact ⟨b, out, hb, hdepth, hadd, htrades.trans (by decide), hfilled.trans (by decide)⟩

end LightningLob
