import LightningLob.StorageInvariant
import LightningLob.FillOrKill

/-! # Aggregate quantities in 64-bit arithmetic

    The checks of `add_order` and `amend_order` bound one quantity, not the sum
    of many.  A level's `total_quantity` and the accumulator of
    `has_liquidity_for` are 64-bit sums over all orders of a level, and over
    all levels within reach; this module says exactly when they are exact. -/

namespace LightningLob

open LevelStore

/-! ## Section 1: Exact sums -/

/-- What is open in a level, summed along its list from the head. -/
def levelOpen (pool : OrderPool) (level : PriceLevel) : Int :=
  openQuantity pool (IndexLinks.follow pool.next pool.nodes.length level.head)

/-- What a taker reaches in the best `n` levels of the makers' side. -/
def bestLevels (taker : Order) (makers : List Order) (n : Nat) : Int :=
  quantityOf (reachable taker ((groups makers).take n).flatten)

/-- The sums that the dry run forms, before they go into its accumulator. -/
def liquidSums (pf : Platform) (side : Side) (type : OrderType) (limitPrice : Int) (needed : Int) :
    Int → List PriceLevelView → List Int
  | _, [] => []
  | accumulated, v :: rest =>
      if type = .limit ∧ better side limitPrice v.price then
        []
      else
        (accumulated + v.totalQuantity) ::
          if pf.wrap (accumulated + v.totalQuantity) ≥ needed then
            []
          else
            liquidSums pf side type limitPrice needed (pf.wrap (accumulated + v.totalQuantity)) rest

/-- The dry run answers by those sums, as far as 64 bits hold them. -/
theorem liquid_eq_any (pf : Platform) (side : Side) (type : OrderType) (limitPrice needed : Int)
    (views : List PriceLevelView) (accumulated : Int) :
    liquid pf side type limitPrice needed accumulated views =
      (liquidSums pf side type limitPrice needed accumulated views).any
        fun sum => decide (pf.wrap sum ≥ needed) := by
  induction views generalizing accumulated with
  | nil => rfl
  | cons v rest ih =>
    unfold liquid liquidSums
    by_cases hlimit : type = .limit ∧ better side limitPrice v.price
    · rw [if_pos hlimit, if_pos hlimit]
      rfl
    · rw [if_neg hlimit, if_neg hlimit]
      by_cases henough : pf.wrap (accumulated + v.totalQuantity) ≥ needed
      · simp [henough]
      · simp [henough, ih]

/-- Every level object of the book, present or not, holds the exact sum. -/
def LevelsExact {k : Approach} (b : k.Book) : Prop :=
  ∀ side, ∀ f ∈ k.filed (b.levels side), f.level.totalQuantity = levelOpen b.pool f.level

/-- No sum that the dry run for this taker forms is lost in 64 bits. -/
def DryRunExact {S : Type} [LevelStore S] [LawfulLevelStore S] (pf : Platform) (b : OrderBook S)
    (taker : Order) (needed : Int) : Prop :=
  ∀ sum ∈ liquidSums pf taker.side.opposite taker.type taker.price needed 0
    (depthOf pf (b.resting taker.side.opposite)), pf.wrap sum = sum

/-! ## Section 2: The 64-bit range -/

section wrapping

variable {pf : Platform}

theorem wrap_eq_self_iff (hwrap : ∀ x, pf.wrap x = Int.bmod x (2 ^ 64)) {x : Int} (hx : 0 ≤ x) :
    pf.wrap x = x ↔ x < 2 ^ 63 := by
  rw [hwrap, Int.bmod_def]
  split <;> omega

end wrapping

/-! ## Section 3: The level objects -/

section levels

variable {pf : Platform} {k : Approach} {b : k.Book} {nz : Prop} {qs : Side → List (List Nat)}

/-- A level with orders is one of the level objects. -/
theorem Approach.filed_of_view {side : Side} {s : k.Levels} (hwf : LawfulLevelStore.WF side s)
    {l : PriceLevel} (hl : l ∈ LawfulLevelStore.view side s) : ∃ f ∈ k.filed s, f.level = l := by
  cases k with
  | map =>
    have hmem : l ∈ s.entries.map Prod.snd := hl
    obtain ⟨e, he, rfl⟩ := List.mem_map.mp hmem
    exact ⟨_, List.mem_map_of_mem he, rfl⟩
  | vector => exact ⟨_, List.mem_map_of_mem hl, rfl⟩
  | array =>
    have hwf : ArrayLevels.WF side s := hwf
    have hmem : l ∈ (ArrayLevels.occupied side s.bitmap).map s.levelAt := hl
    obtain ⟨i, hi, rfl⟩ := List.mem_map.mp hmem
    have hlt : i < s.levels.length := by
      rw [← hwf.numBits]
      exact hwf.bitmap.lt_of_has ((ArrayLevels.mem_occupied side hwf.bitmap).mp hi)
    exact ⟨_, List.mem_map_of_mem (List.mem_range.mpr hlt), rfl⟩

/-- Each level object holds its sum, as far as 64 bits hold it. -/
theorem BookRep.filed_total (h : BookRep pf nz b qs) {side : Side} {f : FiledLevel}
    (hf : f ∈ k.filed (b.levels side)) :
    f.level.totalQuantity = pf.wrap (levelOpen b.pool f.level) ∧ 0 ≤ levelOpen b.pool f.level := by
  obtain ⟨q, hrep, -⟩ := Approach.filed_of_mem (h.sides side) hf
  unfold levelOpen
  rw [hrep.rep.queue.follow_eq]
  refine ⟨hrep.rep.total, List.sum_nonneg ?_⟩
  intro x hx
  obtain ⟨i, hi, rfl⟩ := List.mem_map.mp hx
  exact Int.le_of_lt (hrep.placed i hi).open_pos

/-- The level objects are exact while no level's sum leaves the range. -/
theorem BookRep.levelsExact_iff (hwrap : ∀ x, pf.wrap x = Int.bmod x (2 ^ 64))
    (h : BookRep pf nz b qs) :
    LevelsExact b ↔
      ∀ side, ∀ f ∈ k.filed (b.levels side), levelOpen b.pool f.level < 2 ^ 63 := by
  unfold LevelsExact
  refine forall_congr' fun side => forall₂_congr fun f hf => ?_
  obtain ⟨htotal, hnonneg⟩ := h.filed_total hf
  rw [htotal]
  exact wrap_eq_self_iff hwrap hnonneg

/-- The levels the dry run walks are among the level objects. -/
theorem BookRep.groups_lt (h : BookRep pf nz b qs) {side : Side} {bound : Int}
    (hlevels : ∀ f ∈ k.filed (b.levels side), levelOpen b.pool f.level < bound) {g : List Order}
    (hg : g ∈ groups (b.resting side)) : quantityOf g < bound := by
  have hside := h.sides side
  rw [h.resting_eq, levels_groups hside.levels (LawfulLevelStore.sorted hside.wf)] at hg
  obtain ⟨q, hq, rfl⟩ := List.mem_map.mp hg
  obtain ⟨l, hl, hok⟩ := levels_of_mem hside.levels hq
  obtain ⟨f, hf, rfl⟩ := Approach.filed_of_view hside.wf hl
  have hlt := hlevels f hf
  unfold levelOpen at hlt
  rw [hok.rep.queue.follow_eq] at hlt
  unfold quantityOf
  rw [List.map_map]
  exact hlt

end levels

/-! ## Section 4: The dry run -/

section dry_run

variable {pf : Platform} {taker : Order}

/-- Levels as the dry run walks them: of one price each, best first. -/
structure Walk (side : Side) (gs : List (List Order)) : Prop where
  price : ∀ g ∈ gs, ∃ p, g.head?.map Order.price = some p ∧ ∀ o ∈ g, o.price = p
  open_pos : ∀ g ∈ gs, ∀ o ∈ g, 0 < o.remainingQuantity
  priority : Priority side gs.flatten

theorem Walk.tail {side : Side} {g : List Order} {gs : List (List Order)}
    (h : Walk side (g :: gs)) : Walk side gs where
  price := fun g' hg' => h.price g' (List.mem_cons_of_mem _ hg')
  open_pos := fun g' hg' => h.open_pos g' (List.mem_cons_of_mem _ hg')
  priority := (List.pairwise_append.mp h.priority).2.1

theorem Walk.quantity_nonneg {side : Side} {gs : List (List Order)} (h : Walk side gs)
    (taker : Order) (n : Nat) :
    0 ≤ quantityOf (reachable taker (gs.take n).flatten) := by
  apply quantityOf_nonneg
  intro o ho
  obtain ⟨g, hg, hog⟩ := List.mem_flatten.mp (List.mem_of_mem_filter ho)
  exact h.open_pos g (List.mem_of_mem_take hg) o hog

/-- The next level is out of reach, and all behind it with it; or it is added
    whole. -/
theorem Walk.step {g : List Order} {gs : List (List Order)}
    (h : Walk taker.side.opposite (g :: gs)) (pf : Platform) (needed sum : Int) :
    (liquidSums pf taker.side.opposite taker.type taker.price needed sum
        ((g :: gs).map (levelView pf)) = [] ∧
      ∀ n, quantityOf (reachable taker ((g :: gs).take n).flatten) = 0) ∨
    (liquidSums pf taker.side.opposite taker.type taker.price needed sum
        ((g :: gs).map (levelView pf)) =
        (sum + pf.wrap (quantityOf g)) ::
          (if pf.wrap (sum + pf.wrap (quantityOf g)) ≥ needed then [] else
            liquidSums pf taker.side.opposite taker.type taker.price needed
              (pf.wrap (sum + pf.wrap (quantityOf g))) (gs.map (levelView pf))) ∧
      ∀ n, quantityOf (reachable taker ((g :: gs).take (n + 1)).flatten) =
        quantityOf g + quantityOf (reachable taker (gs.take n).flatten)) := by
  obtain ⟨p, hhead, hprice⟩ := h.price g (by simp)
  have hview : (levelView pf g).price = p := by simp [levelView, hhead]
  rw [List.map_cons, liquidSums, hview]
  by_cases hlimit : taker.type = .limit ∧ better taker.side.opposite taker.price p = true
  · refine Or.inl ⟨if_pos hlimit, ?_⟩
    have hne : g ≠ [] := by
      rintro rfl
      cases hhead
    obtain ⟨x, xs, rfl⟩ := List.exists_cons_of_ne_nil hne
    have hx : reaches taker x.price = false := by
      rw [hprice x (by simp)]
      obtain ⟨htype, hbetter⟩ := hlimit
      unfold reaches priceOk
      cases hs : taker.side <;> simpa [htype, hs, better, Side.opposite] using hbetter
    have hall := Priority.out_of_reach h.priority hx
    intro n
    rw [(reachable_eq_nil _).1]
    · rfl
    · intro o ho
      obtain ⟨g', hg', ho'⟩ := List.mem_flatten.mp ho
      exact hall o (List.mem_flatten_of_mem (List.mem_of_mem_take hg') ho')
  · refine Or.inr ⟨if_neg hlimit, ?_⟩
    have hreach : ∀ o ∈ g, reaches taker o.price = true := by
      intro o ho
      rw [hprice o ho]
      exact reaches_of_not_limit hlimit
    intro n
    rw [List.take_succ_cons, List.flatten_cons, (reachable_append _ hreach).1, quantityOf_append]

/-- `sum` is the exact sum so far.  No sum is lost exactly when the levels stay
    in range until they have enough. -/
theorem Walk.sums_exact_iff (hwrap : ∀ x, pf.wrap x = Int.bmod x (2 ^ 64)) (needed : Int)
    {gs : List (List Order)} (h : Walk taker.side.opposite gs)
    (hlevels : ∀ g ∈ gs, quantityOf g < 2 ^ 63) (sum : Int) (hsum : 0 ≤ sum)
    (hrange : sum < 2 ^ 63) (hmore : sum < needed) :
    (∀ x ∈ liquidSums pf taker.side.opposite taker.type taker.price needed sum
      (gs.map (levelView pf)), pf.wrap x = x) ↔
      ∀ n, sum + quantityOf (reachable taker (gs.take n).flatten) < needed →
        sum + quantityOf (reachable taker (gs.take (n + 1)).flatten) < 2 ^ 63 := by
  induction gs generalizing sum with
  | nil =>
    refine iff_of_true (fun x hx => by cases hx) fun n _ => ?_
    simpa [reachable, quantityOf] using hrange
  | cons g gs ih =>
    have hg : 0 ≤ quantityOf g := quantityOf_nonneg (h.open_pos g (by simp))
    have htotal := (wrap_eq_self_iff hwrap hg).mpr (hlevels g (by simp))
    rcases h.step pf needed sum with ⟨hnil, hzero⟩ | ⟨hcons, hadd⟩
    · rw [hnil]
      refine iff_of_true (fun x hx => by cases hx) fun n _ => ?_
      rw [hzero]
      omega
    rw [hcons, htotal, List.forall_mem_cons, wrap_eq_self_iff hwrap (by omega)]
    constructor
    · rintro ⟨hfits, hlater⟩ n hn
      rw [(wrap_eq_self_iff hwrap (by omega)).mpr hfits] at hlater
      cases n with
      | zero =>
        rw [hadd]
        simpa [reachable, quantityOf] using hfits
      | succ n =>
        rw [hadd] at hn ⊢
        have hnonneg := h.tail.quantity_nonneg taker n
        rw [if_neg (by omega)] at hlater
        have := (ih h.tail (fun g' hg' => hlevels g' (by simp [hg'])) (sum + quantityOf g)
          (by omega) hfits (by omega)).mp hlater n (by omega)
        omega
    · intro hall
      have hfits : sum + quantityOf g < 2 ^ 63 := by
        have := hall 0 (by simpa [reachable, quantityOf] using hmore)
        rw [hadd] at this
        simpa [reachable, quantityOf] using this
      refine ⟨hfits, ?_⟩
      rw [(wrap_eq_self_iff hwrap (by omega)).mpr hfits]
      split
      · intro x hx
        cases hx
      · refine (ih h.tail (fun g' hg' => hlevels g' (by simp [hg'])) (sum + quantityOf g) (by omega)
          hfits (by omega)).mpr fun n hn => ?_
        have := hall (n + 1) (by rw [hadd]; omega)
        rw [hadd] at this
        omega

/-- If no sum is lost, the walk finds what is there. -/
theorem Walk.enough_of_exact (needed : Int) {gs : List (List Order)}
    (h : Walk taker.side.opposite gs)
    (hlevels : ∀ g ∈ gs, pf.wrap (quantityOf g) = quantityOf g) (sum : Int) (hmore : sum < needed)
    (hexact : ∀ x ∈ liquidSums pf taker.side.opposite taker.type taker.price needed sum
      (gs.map (levelView pf)), pf.wrap x = x)
    (henough : needed ≤ sum + quantityOf (reachable taker gs.flatten)) :
    ∃ x ∈ liquidSums pf taker.side.opposite taker.type taker.price needed sum
      (gs.map (levelView pf)), pf.wrap x ≥ needed := by
  induction gs generalizing sum with
  | nil =>
    simp only [List.flatten_nil, reachable, List.filter_nil, quantityOf, List.map_nil,
      List.sum_nil] at henough
    omega
  | cons g gs ih =>
    have hall : ∀ l : List (List Order), (l.take l.length).flatten = l.flatten := by simp
    have htotal := hlevels g (by simp)
    rcases h.step pf needed sum with ⟨hnil, hzero⟩ | ⟨hcons, hadd⟩
    · rw [← hall, hzero] at henough
      omega
    rw [hcons, htotal, List.forall_mem_cons] at hexact
    rw [hcons, htotal]
    obtain ⟨hfits, hlater⟩ := hexact
    by_cases hdone : pf.wrap (sum + quantityOf g) ≥ needed
    · exact ⟨_, List.mem_cons_self, hdone⟩
    · rw [if_neg hdone] at hlater ⊢
      rw [hfits] at hlater hdone ⊢
      rw [← hall, List.length_cons, hadd, hall] at henough
      obtain ⟨x, hx, hge⟩ := ih h.tail (fun g' hg' => hlevels g' (by simp [hg']))
        (sum + quantityOf g) (by omega) hlater (by omega)
      exact ⟨x, List.mem_cons_of_mem _ hx, hge⟩

end dry_run

/-! ## Section 5: Exactly when the aggregates are exact -/

section exactness

variable {pf : Platform} {k : Approach} {b : k.Book} {nz : Prop} {qs : Side → List (List Nat)}

theorem BookRep.walk (h : BookRep pf nz b qs) (side : Side) :
    Walk side (groups (b.resting side)) where
  price := fun g hg => groups_price hg
  open_pos := fun g hg o ho => by
    have hflat : (groups (b.resting side)).flatten = b.resting side := List.flatten_splitBy _ _
    have hmem : o ∈ b.resting side := by
      rw [← hflat]
      exact List.mem_flatten_of_mem hg ho
    exact (h.sound.placed side o hmem).open_pos
  priority := by
    rw [groups, List.flatten_splitBy]
    exact h.sound.priority side

/-- The dry run finds what is there if no sum is lost. -/
theorem BookRep.liquid_iff (h : BookRep pf nz b qs) (taker : Order) {needed : Int}
    (hneeded : 0 < needed)
    (htotals : ∀ g ∈ groups (b.resting taker.side.opposite),
      pf.wrap (quantityOf g) = quantityOf g)
    (hexact : DryRunExact pf b taker needed) :
    liquid pf taker.side.opposite taker.type taker.price needed 0
        (depthOf pf (b.resting taker.side.opposite)) = true ↔
      needed ≤ quantityOf (reachable taker (b.resting taker.side.opposite)) := by
  constructor
  · exact quantity_le_of_liquid h.sound
  · intro henough
    rw [liquid_eq_any, List.any_eq_true]
    obtain ⟨x, hx, hge⟩ := (h.walk taker.side.opposite).enough_of_exact needed htotals 0 hneeded
      hexact (by rw [groups, List.flatten_splitBy, zero_add]; exact henough)
    exact ⟨x, hx, decide_eq_true hge⟩

/-- **When the aggregates are exact.**  In every book reached, the levels hold
    their exact sums, and the dry run for `needed` loses no sum and answers by
    what the taker reaches, exactly if every level's sum is below 2^63 and, as
    long as the best levels have less than `needed`, so is their sum with the
    next level.  This is said of the source while fewer than `2 ^ 32 - 1` orders
    rest. -/
theorem aggregates_exact_iff (pf : Platform) (hwrap : ∀ x, pf.wrap x = Int.bmod x (2 ^ 64))
    (k : Approach) (b : k.Book) (hb : k.Reachable pf (fun _ => True) b) (taker : Order)
    (needed : Int) (hneeded : 0 < needed) :
    ∃ answer, b.hasLiquidityFor pf taker.side taker.type taker.price needed = some answer ∧
      ((LevelsExact b ∧ DryRunExact pf b taker needed ∧
          (answer = true ↔
            needed ≤ quantityOf (reachable taker (b.resting taker.side.opposite)))) ↔
        (∀ side, ∀ f ∈ k.filed (b.levels side), levelOpen b.pool f.level < 2 ^ 63) ∧
          ∀ n, bestLevels taker (b.resting taker.side.opposite) n < needed →
            bestLevels taker (b.resting taker.side.opposite) (n + 1) < 2 ^ 63) := by
  obtain ⟨qs, hrep⟩ : b.Valid pf False := hb.valid fun _ _ hf => hf.elim
  refine ⟨_, hrep.hasLiquidityFor_eq _ _ _ _, ?_⟩
  have hwalk := hrep.walk taker.side.opposite
  rw [hrep.levelsExact_iff hwrap]
  refine and_congr_right fun hlevels => ?_
  have hgroups := fun g => hrep.groups_lt (g := g) (hlevels taker.side.opposite)
  have htotals : ∀ g ∈ groups (b.resting taker.side.opposite),
      pf.wrap (quantityOf g) = quantityOf g := fun g hg =>
    (wrap_eq_self_iff hwrap (quantityOf_nonneg (hwalk.open_pos g hg))).mpr (hgroups g hg)
  have hsums := hwalk.sums_exact_iff hwrap needed hgroups 0 le_rfl (by decide) hneeded
  simp only [zero_add] at hsums
  -- the answer is right whenever no sum is lost
  rw [and_iff_left_of_imp (hrep.liquid_iff taker hneeded htotals)]
  unfold DryRunExact bestLevels depthOf
  rw [← hsums]

/-- Two levels of asks, and a taker that reaches the first. -/
theorem aggregates_exact_iff_two_levels :
    ∃ b : Approach.array.Book, Approach.array.Reachable .int64 (fun _ => True) b ∧
      b.hasLiquidityFor .int64 .buy .limit 100 6 = some true ∧ LevelsExact b ∧
      DryRunExact .int64 b ⟨3, 100, 6, 0, 0, 1, 8, .buy, .limit, .fok⟩ 6 := by
  obtain ⟨replies, b, hrun, hrest, hbuy, hsell⟩ := Approach.session_ends
    (P := fun b => b.resting .sell = [⟨1, 100, 8, 8, 0, 1, 7, .sell, .limit, .gtc⟩,
        ⟨2, 101, 9, 9, 0, 1, 7, .sell, .limit, .gtc⟩] ∧
      (∀ f ∈ Approach.array.filed (b.levels .buy), levelOpen b.pool f.level < 2 ^ 63) ∧
      ∀ f ∈ Approach.array.filed (b.levels .sell), levelOpen b.pool f.level < 2 ^ 63)
    (show ((Approach.array.session .int64 1 90 110 4 .none
      [(.add ⟨1, 100, 8, 0, 0, 1, 7, .sell, .limit, .gtc⟩, fun _ => 0),
       (.add ⟨2, 101, 9, 0, 0, 1, 7, .sell, .limit, .gtc⟩, fun _ => 0)]).any _) = true by
        decide +kernel)
  have hb : Approach.array.Reachable .int64 (fun _ => True) b :=
    Approach.reachable_of_session (fun _ _ => trivial) hrun
  obtain ⟨answer, hanswer, hiff⟩ := aggregates_exact_iff .int64 (fun _ => rfl) .array b hb
    ⟨3, 100, 6, 0, 0, 1, 8, .buy, .limit, .fok⟩ 6 (by decide)
  simp only [Side.opposite, hrest] at hanswer hiff
  have hsides : ∀ side, ∀ f ∈ Approach.array.filed (b.levels side),
      levelOpen b.pool f.level < 2 ^ 63 := by
    intro side
    cases side with
    | buy => exact hbuy
    | sell => exact hsell
  -- of the two levels only the first is within reach
  obtain ⟨hlevels, hdry, hright⟩ := hiff.mpr ⟨hsides, fun n _ => by
    cases n with
    | zero => decide
    | succ n =>
      unfold bestLevels
      rw [List.take_of_length_le (Nat.le_trans (m := 2) (by decide) (by omega))]
      decide⟩
  rw [hright.mpr (by decide)] at hanswer
  exact ⟨b, hb, hanswer, hlevels, hdry⟩

/-- Two orders of the largest quantity at one price: the level holds -2, and a
    taker that wants 1 is told that there is nothing. -/
theorem aggregates_overflow :
    ∃ b : Approach.array.Book, Approach.array.Reachable .int64 Call.NonZero b ∧
      (∃ f ∈ Approach.array.filed (b.levels .sell),
        levelOpen b.pool f.level = 2 ^ 64 - 2 ∧ f.level.totalQuantity = -2) ∧
      b.hasLiquidityFor .int64 .buy .limit 100 1 = some false ∧
      quantityOf (reachable ⟨3, 100, 1, 0, 0, 1, 8, .buy, .limit, .fok⟩ (b.resting .sell)) =
        2 ^ 64 - 2 := by
  obtain ⟨replies, b, hrun, hlevel, hanswer, hopen⟩ := Approach.session_ends
    (P := fun b => (∃ f ∈ Approach.array.filed (b.levels .sell),
        levelOpen b.pool f.level = 2 ^ 64 - 2 ∧ f.level.totalQuantity = -2) ∧
      b.hasLiquidityFor .int64 .buy .limit 100 1 = some false ∧
      quantityOf (reachable ⟨3, 100, 1, 0, 0, 1, 8, .buy, .limit, .fok⟩ (b.resting .sell)) =
        2 ^ 64 - 2)
    (show ((Approach.array.session .int64 1 90 110 4 .none
      [(.add ⟨1, 100, 2 ^ 63 - 1, 0, 0, 1, 7, .sell, .limit, .gtc⟩, fun _ => 0),
       (.add ⟨2, 100, 2 ^ 63 - 1, 0, 0, 1, 7, .sell, .limit, .gtc⟩, fun _ => 0)]).any _) = true by
        decide +kernel)
  exact ⟨b, Approach.reachable_of_session (by decide) hrun, hlevel, hanswer, hopen⟩

end exactness

end LightningLob
