import LightningLob.Equivalence
import LightningLob.FillOrKill
import Mathlib.Data.Finset.Card
import Mathlib.Data.Finset.Dedup

/-! # Depth snapshots

    What `bid_depth`, `ask_depth` and the counters answer, in terms of the
    resting orders alone: the best prices, each once, with the open quantity
    and the number of the orders resting there. -/

namespace LightningLob

/-! ## Section 1: The orders of one price -/

/-- The orders resting at a price, in queue order. -/
def ordersAt (os : List Order) (p : Int) : List Order := os.filter fun o => o.price = p

/-- The prices at which orders rest. -/
def distinctPrices (os : List Order) : Finset Int := (os.map Order.price).toFinset

/-- The depth entry of the orders of one price, if there are any. -/
def levelEntry (pf : Platform) (g : List Order) : List PriceLevelView :=
  if g = [] then [] else [levelView pf g]

theorem mem_distinctPrices {os : List Order} {p : Int} :
    p ∈ distinctPrices os ↔ ∃ o ∈ os, o.price = p := by
  simp [distinctPrices]

section one_side

variable {pf : Platform} {side : Side} {os : List Order}

/-- A side in priority order is its orders of better prices, then those of the
    price, then those of worse ones. -/
theorem Priority.split_at (h : Priority side os) (p : Int) :
    os.filter (fun o => better side o.price p) ++
      (ordersAt os p ++ os.filter fun o => better side p o.price) = os := by
  induction os with
  | nil => rfl
  | cons x xs ih =>
    obtain ⟨hx, hxs⟩ := List.pairwise_cons.mp h
    have ih := ih hxs
    rcases hb : better side x.price p with _ | _
    · -- `x` is not better than `p`, so nothing behind it is
      have hnone : xs.filter (fun o => better side o.price p) = [] := by
        rw [List.filter_eq_nil_iff]
        intro o ho hbet
        have hbehind := hx o ho
        have hne := Ladder.ne_of_better hbet
        cases side <;> simp only [better, decide_eq_true_eq, decide_eq_false_iff_not] at * <;> omega
      rw [hnone, List.nil_append] at ih
      rw [List.filter_cons_of_neg (by simp [hb]), hnone, List.nil_append]
      by_cases heq : x.price = p
      · have hself : better side p x.price = false := by rw [heq]; exact better_irrefl side p
        rw [ordersAt, List.filter_cons_of_pos (by simpa using heq),
          List.filter_cons_of_neg (by simp [hself]), List.cons_append]
        exact congrArg _ ih
      · have hworse : better side p x.price = true := by
          rcases better_total side heq with hc | hc
          · rw [hb] at hc; cases hc
          · exact hc
        have hat : ordersAt xs p = [] := by
          rw [ordersAt, List.filter_eq_nil_iff]
          intro o ho hop
          have hbehind := hx o ho
          have hop : o.price = p := by simpa using hop
          rw [hop, hworse] at hbehind
          cases hbehind
        rw [hat, List.nil_append] at ih
        have hat' : ordersAt (x :: xs) p = [] := by
          rw [ordersAt, List.filter_cons_of_neg (by simpa using heq)]
          exact hat
        rw [hat', List.nil_append, List.filter_cons_of_pos (by simpa using hworse)]
        exact congrArg _ ih
    · have hne : x.price ≠ p := Ladder.ne_of_better hb
      have hnot : better side p x.price = false := better_asymm hb
      rw [List.filter_cons_of_pos (by simpa using hb), ordersAt,
        List.filter_cons_of_neg (by simpa using hne), List.filter_cons_of_neg (by simp [hnot]),
        List.cons_append]
      exact congrArg _ ih

/-- Lists without a price in common have their levels one after the other. -/
theorem depthOf_append {xs ys : List Order} (h : ∀ x ∈ xs, ∀ y ∈ ys, x.price ≠ y.price) :
    depthOf pf (xs ++ ys) = depthOf pf xs ++ depthOf pf ys := by
  unfold depthOf groups
  rw [List.splitBy_append, List.map_append]
  intro x hx y hy
  simpa using h x (List.mem_of_getLast? hx) y (List.mem_of_head? hy)

theorem depthOf_ordersAt (os : List Order) (p : Int) :
    depthOf pf (ordersAt os p) = levelEntry pf (ordersAt os p) := by
  unfold levelEntry
  by_cases hnil : ordersAt os p = []
  · rw [if_pos hnil, hnil]
    rfl
  · rw [if_neg hnil, depthOf, groups, List.splitBy_of_isChain hnil]
    · rfl
    · refine (List.pairwise_of_forall_mem_list ?_).isChain
      intro x hx y hy
      have hxp : x.price = p := by simpa using (List.mem_filter.mp hx).2
      have hyp : y.price = p := by simpa using (List.mem_filter.mp hy).2
      simp [hxp, hyp]

/-- **The depth around one price.** -/
theorem Priority.depth_split (h : Priority side os) (pf : Platform) (p : Int) :
    depthOf pf os = depthOf pf (os.filter fun o => better side o.price p) ++
      (levelEntry pf (ordersAt os p) ++
        depthOf pf (os.filter fun o => better side p o.price)) := by
  have hat : ∀ x ∈ ordersAt os p, x.price = p := by
    intro x hx
    simpa using (List.mem_filter.mp hx).2
  conv_lhs => rw [← h.split_at p]
  rw [depthOf_append, depthOf_append, depthOf_ordersAt]
  · intro x hx y hy
    rw [hat x hx]
    exact Ladder.ne_of_better (List.mem_filter.mp hy).2
  · intro x hx y hy
    have hx : better side x.price p = true := (List.mem_filter.mp hx).2
    rcases List.mem_append.mp hy with hy | hy
    · rw [hat y hy]
      exact Ladder.ne_of_better hx
    · exact Ladder.ne_of_better (better_trans hx (List.mem_filter.mp hy).2)

/-- A depth entry has the price of an order. -/
theorem price_of_mem_depthOf {v : PriceLevelView} (hv : v ∈ depthOf pf os) :
    ∃ o ∈ os, o.price = v.price := by
  obtain ⟨g, hg, rfl⟩ := List.mem_map.mp hv
  obtain ⟨x, xs, rfl⟩ := List.exists_cons_of_ne_nil (List.ne_nil_of_mem_splitBy hg)
  refine ⟨x, ?_, rfl⟩
  rw [← List.flatten_splitBy (fun a b : Order => a.price == b.price) os]
  exact List.mem_flatten_of_mem hg (by simp)

/-- The depth entry at a price is that of the orders there. -/
theorem Priority.mem_depthOf_iff (h : Priority side os) {v : PriceLevelView} :
    v ∈ depthOf pf os ↔ ordersAt os v.price ≠ [] ∧ v = levelView pf (ordersAt os v.price) := by
  have hsplit := h.depth_split pf v.price
  -- entries of better and of worse prices are not at this price
  have hbetter : v ∉ depthOf pf (os.filter fun o => better side o.price v.price) := by
    intro hv
    obtain ⟨o, ho, hp⟩ := price_of_mem_depthOf hv
    exact Ladder.ne_of_better (List.mem_filter.mp ho).2 hp
  have hworse : v ∉ depthOf pf (os.filter fun o => better side v.price o.price) := by
    intro hv
    obtain ⟨o, ho, hp⟩ := price_of_mem_depthOf hv
    exact Ladder.ne_of_better (List.mem_filter.mp ho).2 hp.symm
  rw [hsplit, List.mem_append, List.mem_append, or_iff_right hbetter, or_iff_left hworse,
    levelEntry]
  by_cases hnil : ordersAt os v.price = []
  · simp [hnil]
  · simp [hnil]

/-- The depth entry of the orders of a price is at that price. -/
theorem levelView_price (pf : Platform) {p : Int} (hne : ordersAt os p ≠ []) :
    (levelView pf (ordersAt os p)).price = p := by
  obtain ⟨x, xs, hcons⟩ := List.exists_cons_of_ne_nil hne
  have hmem : x ∈ ordersAt os p := by rw [hcons]; simp
  rw [hcons]
  simpa [levelView] using (List.mem_filter.mp hmem).2

/-- Every order's price has a depth entry. -/
theorem Priority.exists_entry (h : Priority side os) (pf : Platform) {o : Order} (ho : o ∈ os) :
    ∃ v ∈ depthOf pf os, v.price = o.price := by
  have hne : ordersAt os o.price ≠ [] := List.ne_nil_of_mem (List.mem_filter.mpr ⟨ho, by simp⟩)
  have hprice := levelView_price pf hne
  refine ⟨levelView pf (ordersAt os o.price), ?_, hprice⟩
  rw [h.mem_depthOf_iff, hprice]
  exact ⟨hne, rfl⟩

end one_side

/-! ## Section 2: A snapshot of the resting orders -/

/-- The best `n` prices of a side, strictly best first, each with what rests
    there. -/
structure Snapshot (side : Side) (os : List Order) (n : Nat) (views : List PriceLevelView) :
    Prop where
  length_eq : views.length = min n (distinctPrices os).card
  ordered : views.Pairwise fun v w => better side v.price w.price = true
  /-- A price that is not listed is worse than all that are. -/
  best : ∀ p ∈ distinctPrices os, (∀ v ∈ views, v.price ≠ p) →
    ∀ v ∈ views, better side v.price p = true
  total : ∀ v ∈ views, v.totalQuantity = quantityOf (ordersAt os v.price)
  count : ∀ v ∈ views, v.orderCount = (ordersAt os v.price).length
  resting : ∀ v ∈ views, v.price ∈ distinctPrices os

section snapshots

variable {S : Type} [LevelStore S] [LawfulLevelStore S] {pf : Platform} {nz : Prop}
  {b : OrderBook S} {qs : Side → List (List Nat)}

/-- The levels of a side are listed best first. -/
theorem BookRep.depth_ordered (h : BookRep pf nz b qs) (side : Side) :
    (depthOf pf (b.resting side)).Pairwise fun v w => better side v.price w.price = true := by
  rw [← h.entries_eq, List.pairwise_map]
  exact LawfulLevelStore.sorted (h.sides side).wf

/-- The number of levels is the number of prices. -/
theorem BookRep.depth_length (h : BookRep pf nz b qs) (side : Side) :
    (depthOf pf (b.resting side)).length = (distinctPrices (b.resting side)).card := by
  have hprio := h.sound.priority side
  rw [OrderBook.reference_orders] at hprio
  have hnodup : ((depthOf pf (b.resting side)).map PriceLevelView.price).Nodup := by
    rw [List.Nodup, List.pairwise_map]
    exact (h.depth_ordered side).imp fun hb => Ladder.ne_of_better hb
  have hset : distinctPrices (b.resting side) =
      ((depthOf pf (b.resting side)).map PriceLevelView.price).toFinset := by
    ext p
    rw [mem_distinctPrices, List.mem_toFinset, List.mem_map]
    constructor
    · rintro ⟨o, ho, rfl⟩
      exact hprio.exists_entry pf ho
    · rintro ⟨v, hv, rfl⟩
      exact price_of_mem_depthOf hv
  rw [hset, List.toFinset_card_of_nodup hnodup, List.length_map]

/-- The first entries of the depth are a snapshot. -/
theorem BookRep.snapshot (h : BookRep pf nz b qs) (hexact : ∀ x, pf.wrap x = x) (side : Side)
    (n : Nat) : Snapshot side (b.resting side) n ((depthOf pf (b.resting side)).take n) := by
  have hprio := h.sound.priority side
  rw [OrderBook.reference_orders] at hprio
  have hentry : ∀ v ∈ (depthOf pf (b.resting side)).take n,
      v = levelView pf (ordersAt (b.resting side) v.price) := by
    intro v hv
    exact (hprio.mem_depthOf_iff.mp (List.mem_of_mem_take hv)).2
  have hordered := h.depth_ordered side
  refine ⟨?_, hordered.sublist (List.take_sublist _ _), ?_, ?_, ?_, ?_⟩
  · rw [List.length_take, h.depth_length]
  · intro p hp hnot v hv
    -- the level at `p` is behind the listed ones
    obtain ⟨o, ho, rfl⟩ := mem_distinctPrices.mp hp
    obtain ⟨w, hw, hwp⟩ := hprio.exists_entry pf ho
    rw [← List.take_append_drop n (depthOf pf (b.resting side))] at hw hordered
    rw [← hwp]
    rcases List.mem_append.mp hw with hw | hw
    · exact (hnot w hw hwp).elim
    · exact (List.pairwise_append.mp hordered).2.2 v hv w hw
  · intro v hv
    have htotal := congrArg PriceLevelView.totalQuantity (hentry v hv)
    rw [htotal]
    exact hexact _
  · intro v hv
    exact congrArg PriceLevelView.orderCount (hentry v hv)
  · intro v hv
    exact mem_distinctPrices.mpr (price_of_mem_depthOf (List.mem_of_mem_take hv))

end snapshots

/-! ## Section 3: Every reachable book -/

/-- **Depth snapshots aggregate the resting orders.**  In every book reached,
    with quantities read as exact integers and `reserve` as a no-op,
    `bid_depth(n)` and `ask_depth(n)` list the best prices of their side with
    what rests there, and so they do wherever `reserve` returns; the counters
    count the prices and the orders.  This is said of the source while fewer
    than `2 ^ 32 - 1` orders rest. -/
theorem depth_aggregates_resting_orders (pf : Platform) (hexact : ∀ x, pf.wrap x = x)
    (k : Approach) (b : k.Book) (hb : k.Reachable pf Call.NonZero b) :
    (∀ n, ∃ bids asks, b.bidDepthUnreserved n = some bids ∧ b.askDepthUnreserved n = some asks ∧
      (LevelStore.reserve k.Levels n = some () →
        b.bidDepth n = some bids ∧ b.askDepth n = some asks) ∧
      Snapshot .buy (b.resting .buy) n bids ∧ Snapshot .sell (b.resting .sell) n asks) ∧
    b.bidLevelCount = (distinctPrices (b.resting .buy)).card ∧
    b.askLevelCount = (distinctPrices (b.resting .sell)).card ∧
    b.orderCount = (b.resting .buy).length + (b.resting .sell).length := by
  have hvalid : b.Valid pf True := hb.valid fun _ hc _ => hc
  have hobserve := hvalid.observe_eq
  obtain ⟨qs, hrep⟩ := hvalid
  refine ⟨?_, ?_, ?_, ?_⟩
  · intro n
    have hbid : b.bidDepthUnreserved n = _ := hrep.depth_eq .buy n
    have hask : b.askDepthUnreserved n = _ := hrep.depth_eq .sell n
    refine ⟨_, _, hbid, hask, fun hreserve => ⟨?_, ?_⟩, hrep.snapshot hexact .buy n,
      hrep.snapshot hexact .sell n⟩
    · rw [← hbid, OrderBook.bidDepth, hreserve]
      rfl
    · rw [← hask, OrderBook.askDepth, hreserve]
      rfl
  · rw [← hrep.depth_length]
    exact congrArg Observation.bidLevelCount hobserve
  · rw [← hrep.depth_length]
    exact congrArg Observation.askLevelCount hobserve
  · have hcount := congrArg Observation.orderCount hobserve
    show b.observe.orderCount = _
    rw [hcount]
    exact List.length_append

/-- Two bids at one price behind a better one, of which two levels are asked
    for. -/
theorem depth_aggregates_resting_orders_two_bids :
    ∃ b : Approach.array.Book, Approach.array.Reachable .exact Call.NonZero b ∧
      b.bidDepth 2 = some [⟨101, 4, 1⟩, ⟨100, 12, 2⟩] ∧
      Snapshot .buy (b.resting .buy) 2 [⟨101, 4, 1⟩, ⟨100, 12, 2⟩] ∧
      b.bidLevelCount = (distinctPrices (b.resting .buy)).card := by
  obtain ⟨replies, b, hrun, hdepth⟩ := Approach.session_ends
    (P := fun b => b.bidDepth 2 = some [⟨101, 4, 1⟩, ⟨100, 12, 2⟩])
    (show ((Approach.array.session .exact 1 90 110 4 .none
      [(.add ⟨1, 100, 5, 0, 0, 1, 7, .buy, .limit, .gtc⟩, fun _ => 0),
       (.add ⟨2, 101, 4, 0, 0, 1, 7, .buy, .limit, .gtc⟩, fun _ => 0),
       (.add ⟨3, 100, 7, 0, 0, 1, 8, .buy, .limit, .gtc⟩, fun _ => 0)]).any _) = true by
        decide +kernel)
  have hb : Approach.array.Reachable .exact Call.NonZero b :=
    Approach.reachable_of_session (by decide) hrun
  obtain ⟨hdepths, hcount, -, -⟩ :=
    depth_aggregates_resting_orders .exact (fun _ => rfl) .array b hb
  obtain ⟨bids, asks, -, -, hanswers, hsnap, -⟩ := hdepths 2
  obtain ⟨hbids, -⟩ := hanswers (Approach.array.reserve_eq (by decide))
  rw [hdepth] at hbids
  cases hbids
  exact ⟨b, hb, hdepth, hsnap, hcount⟩

end LightningLob
