import LightningLob.Approach
import LightningLob.Lib.Loops

/-! # Matching terminates

    The two loops of `match_against_book` have no counter.  Their runs are
    listed here iteration by iteration, without fuel: an iteration of the inner
    loop removes an order, exhausts the taker or kills it; one of the outer
    loop removes its level, exhausts the taker or leaves the loop.  So every
    run is finite, with at most one inner iteration for each resting order and
    at most one outer iteration for each level and one more. -/

namespace LightningLob

open LevelStore Loops

/-! ## Section 1: The loops, without fuel -/

/-- The state of the inner loop: `stp_killed`, the level and what matching
    changes. -/
abbrev DrainState : Type := Bool × PriceLevel × Matching

/-- The state of the outer loop, over the container of the opposite side. -/
abbrev MatchState (S : Type) : Type := Bool × S × Matching

/-- An iteration of the inner loop, with the slot of the maker it is about. -/
abbrev DrainRound : Type := Round DrainState Nat

/-- An iteration of the outer loop, with the iterations of the inner loop in it. -/
abbrev MatchRound (S : Type) : Type := Round (MatchState S) (List DrainRound)

/-- The condition of the inner loop fails. -/
def DrainDone (d : DrainState) : Prop :=
  d.1 = false ∧ (d.2.1.head = none ∨ d.2.2.taker.remainingQuantity ≤ 0)

/-- One iteration of the inner loop, left by the `break` or `return` after the
    taker was killed. -/
structure DrainIter (pf : Platform) (policy : SelfTradePrevention) (symbol : SymbolId)
    (price : Int) (now : Nat → Timestamp) (r : DrainRound) : Prop where
  head : r.before.2.1.head = some r.info
  taker_open : 0 < r.before.2.2.taker.remainingQuantity
  body : drainStep pf policy symbol price now r.before.2.1 r.before.2.2 r.info = some r.after
  left : r.left = r.after.1

/-- The condition of the outer loop fails. -/
def MatchDone {S : Type} (d : MatchState S) : Prop :=
  d.1 = false ∧ d.2.2.taker.remainingQuantity ≤ 0

/-- One iteration of the outer loop. -/
inductive MatchIter {S : Type} [LevelStore S] (pf : Platform) (policy : SelfTradePrevention)
    (symbol : SymbolId) (side : Side) (now : Nat → Timestamp) : MatchRound S → Prop where
  /-- The side is empty: `break`.  The array book has this in the condition of
      its loop. -/
  | empty {s : S} {m : Matching} : 0 < m.taker.remainingQuantity → front side s = some none →
      MatchIter pf policy symbol side now ⟨(false, s, m), [], true, (false, s, m)⟩
  /-- The best level is beyond the limit: `break`. -/
  | beyond {s : S} {m : Matching} {price : Int} {level : PriceLevel} :
      0 < m.taker.remainingQuantity → front side s = some (some (price, level)) →
      (m.taker.type = .limit ∧ ¬ priceOk m.taker price) →
      MatchIter pf policy symbol side now ⟨(false, s, m), [], true, (false, s, m)⟩
  /-- The best level is drained; `return true` if that killed the taker. -/
  | drain {s s' : S} {m m' : Matching} {price : Int} {level level' : PriceLevel} {killed : Bool}
      {inner : List DrainRound} :
      0 < m.taker.remainingQuantity → front side s = some (some (price, level)) →
      ¬ (m.taker.type = .limit ∧ ¬ priceOk m.taker price) →
      Runs DrainDone (DrainIter pf policy symbol price now) (false, level, m) inner
        (killed, level', m') →
      putFront side s level' = some s' →
      MatchIter pf policy symbol side now ⟨(false, s, m), inner, killed, (killed, s', m')⟩

/-- The slots of a level's queue, from its head. -/
def DrainState.chain (d : DrainState) : List Nat :=
  IndexLinks.follow d.2.2.pool.next d.2.2.pool.nodes.length d.2.1.head

/-- The iteration took its maker off the queue and released the slot. -/
def DrainRound.RemovesOrder (r : DrainRound) : Prop :=
  DrainState.chain r.before = r.info :: DrainState.chain r.after ∧
    r.info ∉ r.before.2.2.pool.freeList ∧ r.info ∈ r.after.2.2.pool.freeList

/-- The iteration exhausted the taker, or ended the match. -/
def DrainRound.Ends (r : DrainRound) : Prop :=
  r.after.2.2.taker.remainingQuantity = 0 ∨ r.left = true

/-- The iteration took the best level off its side. -/
def MatchRound.RemovesLevel {S : Type} [LevelStore S] [LawfulLevelStore S] (side : Side)
    (r : MatchRound S) : Prop :=
  ∃ l, LawfulLevelStore.view side r.before.2.1 = l :: LawfulLevelStore.view side r.after.2.1

/-- The iteration exhausted the taker, or ended the match. -/
def MatchRound.Ends {S : Type} (r : MatchRound S) : Prop :=
  r.after.2.2.taker.remainingQuantity = 0 ∨ r.left = true

/-- What is said of the iterations of a whole match, against a side of the
    given numbers of orders and levels. -/
structure Bounded {S : Type} [LevelStore S] [LawfulLevelStore S] (side : Side)
    (orders levels : Nat) (rounds : List (MatchRound S)) : Prop where
  outer : Progress (MatchRound.RemovesLevel side) MatchRound.Ends rounds
  inner : ∀ r ∈ rounds, Progress DrainRound.RemovesOrder DrainRound.Ends r.info
  inner_count : (rounds.map fun r => r.info.length).sum ≤ orders
  /-- The iterations that look at a level. -/
  level_count : rounds.countP (fun r => levelCount r.before.2.1 ≠ 0) ≤ levels
  /-- One more may find the side empty. -/
  outer_count : rounds.length ≤ levels + 1

/-! ## Section 2: The inner loop -/

section drain

variable {pf : Platform} {nz : Prop} {policy : SelfTradePrevention} {symbol : SymbolId}
  {price : Int} {now : Nat → Timestamp} {level level' : PriceLevel} {m m' : Matching}
  {q others : List Nat} {i : Nat} {killed : Bool}

/-- A round that takes the head off the queue. -/
theorem DrainRound.RemovesOrder.of_head (hrep : LevelRep pf m.pool level (i :: q))
    (hs : Store nz m.pool m.idIndex (i :: q ++ others)) (hrep' : LevelRep pf m'.pool level' q)
    (hs' : Store nz m'.pool m'.idIndex (q ++ others))
    (hlen : m'.pool.nodes.length = m.pool.nodes.length) :
    DrainRound.RemovesOrder ⟨(false, level, m), i, killed, (killed, level', m')⟩ := by
  have hi : i ∈ i :: q ++ others := by simp
  refine ⟨?_, ?_, ?_⟩
  · show IndexLinks.follow m.pool.next m.pool.nodes.length level.head =
      i :: IndexLinks.follow m'.pool.next m'.pool.nodes.length level'.head
    rw [hrep.queue.follow_eq, hrep'.queue.follow_eq]
  · exact (hs.live_iff.mp hi).2
  · -- the slot is in the pool and no longer in use
    have hlt : i < m'.pool.nodes.length := by
      rw [hlen]
      exact hs.lt hi
    by_contra hfree
    exact (List.nodup_cons.mp hs.nodup).1 (hs'.live_iff.mpr ⟨hlt, hfree⟩)

/-- One iteration: the maker leaves the queue, or the taker is exhausted or
    killed. -/
theorem drainStep_progress (policy : SelfTradePrevention) (symbol : SymbolId) (price : Int)
    (now : Nat → Timestamp) (hrep : LevelRep pf m.pool level (i :: q))
    (hs : Store nz m.pool m.idIndex (i :: q ++ others)) :
    ∃ killed level' m' q', drainStep pf policy symbol price now level m i =
        some (killed, level', m') ∧
      LevelRep pf m'.pool level' q' ∧ Store nz m'.pool m'.idIndex (q' ++ others) ∧
      m'.pool.nodes.length = m.pool.nodes.length ∧
      (q' = q ∨ m'.taker.remainingQuantity = 0 ∨ killed = true) := by
  cases hself : selfTrade policy m.taker (m.pool.orderAt i) with
  | true =>
    by_cases hpol : policy = .cancelResting ∨ policy = .cancelBoth
    · obtain ⟨level', m', hstep, hrep', -, -, -, -, hs', -, hlen⟩ :=
        drainStep_drop symbol price now hrep hs hself hpol
      exact ⟨_, level', m', q, hstep, hrep', hs', hlen, Or.inl rfl⟩
    · -- a policy that cancels neither side sees no self-trade
      have hpol' : policy = .cancelIncoming := by
        cases policy with
        | none =>
          rw [selfTrade_none] at hself
          cases hself
        | cancelIncoming => rfl
        | cancelResting | cancelBoth => simp at hpol
      exact ⟨true, level, m, i :: q, drainStep_keep hrep hself hpol', hrep, hs, rfl,
        Or.inr (Or.inr rfl)⟩
  | false =>
    by_cases hle : (m.pool.orderAt i).remainingQuantity ≤ m.taker.remainingQuantity
    · obtain ⟨level', m', hstep, hrep', -, -, -, -, hs', -, hlen⟩ :=
        drainStep_fill symbol price now hrep hs hself hle
      exact ⟨false, level', m', q, hstep, hrep', hs', hlen, Or.inl rfl⟩
    · obtain ⟨level', m', hstep, hrep', -, htaker, -, -, hs', -, hlen⟩ :=
        drainStep_part symbol price now hrep hs hself (Int.not_le.mp hle)
      exact ⟨false, level', m', i :: q, hstep, hrep', hs', hlen,
        Or.inr (Or.inl (by rw [htaker]))⟩

/-- **The inner loop terminates**, with at most one iteration for each order of
    the level. -/
theorem drain_runs (policy : SelfTradePrevention) (symbol : SymbolId) (price : Int)
    (now : Nat → Timestamp) :
    ∀ {q : List Nat} {level : PriceLevel} {m : Matching}, LevelRep pf m.pool level q →
      Store nz m.pool m.idIndex (q ++ others) →
      ∃ rounds d, Runs DrainDone (DrainIter pf policy symbol price now) (false, level, m) rounds d ∧
        rounds.length ≤ q.length ∧ Progress DrainRound.RemovesOrder DrainRound.Ends rounds := by
  -- induction on the queue: only an iteration that shortens it goes on
  intro q
  induction q with
  | nil =>
    intro level m hrep hs
    exact ⟨[], _, .done ⟨rfl, Or.inl hrep.queue.head⟩, by simp, .nil⟩
  | cons i q ih =>
    intro level m hrep hs
    by_cases hrem : m.taker.remainingQuantity ≤ 0
    · exact ⟨[], _, .done ⟨rfl, Or.inr hrem⟩, by simp, .nil⟩
    obtain ⟨killed, level', m', q', hstep, hrep', hs', hlen, hcases⟩ :=
      drainStep_progress policy symbol price now hrep hs
    have hiter : DrainIter pf policy symbol price now
        ⟨(false, level, m), i, killed, (killed, level', m')⟩ :=
      ⟨hrep.queue.head, Int.not_le.mp hrem, hstep, rfl⟩
    cases killed with
    | true => exact ⟨_, _, .leave hiter rfl, by simp, .single (Or.inr (Or.inr rfl))⟩
    | false =>
      by_cases hdone : m'.taker.remainingQuantity = 0
      · have hrest : DrainDone (false, level', m') := ⟨rfl, Or.inr (Int.le_of_eq hdone)⟩
        exact ⟨_, _, .next hiter rfl (.done hrest), by simp, .single (Or.inr (Or.inl hdone))⟩
      · have hq : q' = q := by
          rcases hcases with hq | hzero | hkilled
          · exact hq
          · exact (hdone hzero).elim
          · cases hkilled
        rw [hq] at hrep' hs'
        obtain ⟨rounds, d, hruns, hcount, hprog⟩ := ih hrep' hs'
        exact ⟨_, d, .next hiter rfl hruns, by simpa using hcount,
          .cons (.of_head hrep hs hrep' hs' hlen) hprog⟩

/-- The fuelled loop computes the end of the run. -/
theorem drainLevel_of_runs {rounds : List DrainRound} {d : DrainState}
    (h : Runs DrainDone (DrainIter pf policy symbol price now) (false, level, m) rounds d)
    {fuel : Nat} (hfuel : rounds.length < fuel) :
    drainLevel pf policy symbol price now fuel level m = some d := by
  refine Runs.exec_eq (f := fun n d => drainLevel pf policy symbol price now n d.2.1 d.2.2) h
    ?_ ?_ (Nat.lt_of_le_of_lt List.countP_le_length hfuel)
  · rintro ⟨killed, level, m⟩ n ⟨rfl, hhead | hrem⟩
    · simp only [drainLevel, show level.head = none from hhead]
      rfl
    · exact drainLevel_spent hrem
  · rintro ⟨⟨_, level, m⟩, i, left, ⟨killed, level', m'⟩⟩ _ n hr
    obtain rfl : left = killed := hr.left
    cases left with
    | true => exact drainLevel_kill hr.head hr.taker_open hr.body
    | false => exact drainLevel_step hr.head hr.taker_open hr.body

/-- The run of a level that the fuelled loop drains. -/
theorem drainLevel_runs (hrep : LevelRep pf m.pool level q)
    (hs : Store nz m.pool m.idIndex (q ++ others)) {d : DrainState}
    (hdrain : drainLevel pf policy symbol price now (m.pool.nodes.length + 1) level m = some d) :
    ∃ rounds, Runs DrainDone (DrainIter pf policy symbol price now) (false, level, m) rounds d ∧
      rounds.length ≤ q.length ∧ Progress DrainRound.RemovesOrder DrainRound.Ends rounds := by
  obtain ⟨rounds, d', hruns, hlen, hprog⟩ := drain_runs policy symbol price now hrep hs
  have hfuel := Nat.lt_succ_of_le (Nat.le_trans hlen hrep.queue.length_le)
  have hsame := drainLevel_of_runs hruns hfuel
  rw [hdrain] at hsame
  cases hsame
  exact ⟨rounds, hruns, hlen, hprog⟩

end drain

/-! ## Section 3: The outer loop -/

section matching

variable {S : Type} [LevelStore S] [LawfulLevelStore S] {pf : Platform} {nz : Prop}
  {policy : SelfTradePrevention} {symbol : SymbolId} {side : Side} {now : Nat → Timestamp}
  {taker : Order} {others : List Nat}

theorem Bounded.nil {orders levels : Nat} :
    Bounded side orders levels ([] : List (MatchRound S)) :=
  ⟨.nil, by simp, by simp, by simp, by simp⟩

/-- The last iteration of a match. -/
theorem Bounded.single {orders levels : Nat} {r : MatchRound S}
    (hr : r.RemovesLevel side ∨ r.Ends)
    (hinner : Progress DrainRound.RemovesOrder DrainRound.Ends r.info)
    (horders : r.info.length ≤ orders) (hlevels : levelCount r.before.2.1 ≤ levels) :
    Bounded side orders levels [r] where
  outer := .single hr
  inner := by simpa using hinner
  inner_count := by simpa using horders
  level_count := by
    rw [List.countP_singleton]
    split
    · rename_i hne
      have hpos := Nat.pos_of_ne_zero (of_decide_eq_true hne)
      omega
    · omega
  outer_count := by simp

/-- An iteration that removed its level, and those that follow. -/
theorem Bounded.cons {orders levels n : Nat} {r : MatchRound S} {rounds : List (MatchRound S)}
    (hr : r.RemovesLevel side)
    (hinner : Progress DrainRound.RemovesOrder DrainRound.Ends r.info)
    (horders : r.info.length ≤ n) (h : Bounded side orders levels rounds) :
    Bounded side (n + orders) (levels + 1) (r :: rounds) where
  outer := .cons hr h.outer
  inner := by
    intro x hx
    rcases List.mem_cons.mp hx with rfl | hx
    · exact hinner
    · exact h.inner x hx
  inner_count := by
    have hrest := h.inner_count
    rw [List.map_cons, List.sum_cons]
    omega
  level_count := by
    have hrest := h.level_count
    rw [List.countP_cons]
    split <;> omega
  outer_count := by
    have hrest := h.outer_count
    rw [List.length_cons]
    omega

/-- A run of the outer loop within its bounds, for which the fuel of the loops
    is enough. -/
structure MatchRun (pf : Platform) (policy : SelfTradePrevention) (symbol : SymbolId) (side : Side)
    (now : Nat → Timestamp) (orders levels : Nat) (s : S) (m : Matching)
    (rounds : List (MatchRound S)) (d : MatchState S) : Prop where
  runs : Runs MatchDone (MatchIter pf policy symbol side now) (false, s, m) rounds d
  bounded : Bounded side orders levels rounds
  fuel : rounds.countP (fun r => !r.left) ≤ levels
  inner_fuel : ∀ r ∈ rounds, r.info.length ≤ r.before.2.2.pool.nodes.length

theorem MatchRun.spent {orders levels : Nat} {s : S} {m : Matching}
    (hrem : m.taker.remainingQuantity ≤ 0) :
    MatchRun pf policy symbol side now orders levels s m [] (false, s, m) :=
  ⟨.done ⟨rfl, hrem⟩, .nil, by simp, by simp⟩

/-- The iteration that leaves the loop. -/
theorem MatchRun.leave {orders levels : Nat} {s : S} {m : Matching} {inner : List DrainRound}
    {d : MatchState S}
    (hiter : MatchIter pf policy symbol side now ⟨(false, s, m), inner, true, d⟩)
    (hinner : Progress DrainRound.RemovesOrder DrainRound.Ends inner)
    (horders : inner.length ≤ orders) (hlevels : levelCount s ≤ levels)
    (hpool : inner.length ≤ m.pool.nodes.length) :
    MatchRun pf policy symbol side now orders levels s m [⟨(false, s, m), inner, true, d⟩] d :=
  ⟨.leave hiter rfl, .single (Or.inr (Or.inr rfl)) hinner horders hlevels, by simp,
    by simpa using hpool⟩

/-- Writing an emptied best level back removes it. -/
theorem putFront_removes {pool : OrderPool} {s s' : S} {l l' : PriceLevel} {ls : List PriceLevel}
    (hwf : LawfulLevelStore.WF side s) (hview : LawfulLevelStore.view side s = l :: ls)
    (hrep : LevelRep pf pool l' []) (hprice : l'.price = l.price)
    (hput : putFront side s l' = some s') : LawfulLevelStore.view side s' = ls := by
  obtain ⟨s₁, hput₁, -, hview₁, -⟩ := LawfulLevelStore.putFront_spec hwf hview hprice hrep.clean
  rw [hput] at hput₁
  cases hput₁
  rw [hview₁, if_pos (hrep.empty_iff.mpr rfl)]

/-- **The outer loop terminates**, with at most one iteration for each level
    and one that finds no level left. -/
theorem match_runs (policy : SelfTradePrevention) (symbol : SymbolId) (now : Nat → Timestamp) :
    ∀ {qs : List (List Nat)} {s : S} {m : Matching} {rem : Int},
      SideRep pf m.pool taker.side.opposite s qs →
      m.taker = { taker with remainingQuantity := rem } →
      Store nz m.pool m.idIndex (qs.flatten ++ others) →
      ∃ rounds d, MatchRun pf policy symbol taker.side.opposite now qs.flatten.length qs.length
        s m rounds d := by
  -- induction on the levels: only an iteration that removes one goes on
  intro qs
  induction qs with
  | nil =>
    intro s m rem hrep htaker hs
    by_cases hrem : m.taker.remainingQuantity ≤ 0
    · exact ⟨[], _, .spent hrem⟩
    have hview : LawfulLevelStore.view taker.side.opposite s = [] :=
      List.forall₂_nil_right_iff.mp hrep.levels
    have hfront : front taker.side.opposite s = some none := by
      rw [LawfulLevelStore.front_eq hrep.wf, hview]
      rfl
    have hcount : levelCount s = 0 := by
      rw [LawfulLevelStore.levelCount_eq hrep.wf, hview]
      rfl
    exact ⟨_, _, .leave (.empty (Int.not_le.mp hrem) hfront) .nil (by simp)
      (Nat.le_of_eq hcount) (by simp)⟩
  | cons q qs ih =>
    intro s m rem hrep htaker hs
    by_cases hrem : m.taker.remainingQuantity ≤ 0
    · exact ⟨[], _, .spent hrem⟩
    have hpos := Int.not_le.mp hrem
    have hcount : levelCount s ≤ (q :: qs).length := by
      rw [LawfulLevelStore.levelCount_eq hrep.wf, hrep.levels.length_eq]
    have hf := fold_folds policy taker rem (q.map m.pool.orderAt)
    generalize fold policy taker rem (q.map m.pool.orderAt) = r at hf
    obtain ⟨l, ls, s₁, m₁, l', q', hl, hview, hdrain, hput, hrep₁, -, hd⟩ :=
      hrep.drain_front symbol now htaker hs hf
    have hfront : front taker.side.opposite s = some (some (l.price, l)) := by
      rw [LawfulLevelStore.front_eq hrep.wf, hview]
      rfl
    by_cases hlimit : m.taker.type = .limit ∧ ¬ priceOk m.taker l.price = true
    · exact ⟨_, _, .leave (.beyond hpos hfront hlimit) .nil (by simp) hcount (by simp)⟩
    -- the inner loop ends where the fuelled one does
    have hs' : Store nz m.pool m.idIndex (q ++ (qs.flatten ++ others)) := by
      simpa using hs
    obtain ⟨inner, hruns, hlen, hprog⟩ := drainLevel_runs hl.rep hs' hdrain
    have hpool : inner.length ≤ m.pool.nodes.length :=
      Nat.le_trans hlen hl.rep.queue.length_le
    have hiter : MatchIter pf policy symbol taker.side.opposite now
        ⟨(false, s, m), inner, r.killed, (r.killed, s₁, m₁)⟩ :=
      .drain hpos hfront hlimit hruns hput
    have horders : inner.length ≤ (q :: qs).flatten.length := by
      rw [List.flatten_cons, List.length_append]
      omega
    cases hk : r.killed with
    | true =>
      rw [hk] at hiter
      exact ⟨_, _, .leave hiter hprog horders hcount hpool⟩
    | false =>
      rw [hk] at hiter
      by_cases hdone : r.remaining ≤ 0
      · -- exhausted: the condition of the loop fails at its next check
        have hopen : 0 ≤ rem := by
          rw [htaker] at hpos
          exact Int.le_of_lt hpos
        have hnonneg : 0 ≤ r.remaining := hf.remaining_nonneg hopen
        have hzero : m₁.taker.remainingQuantity = 0 := by
          rw [hd.taker_eq]
          show r.remaining = 0
          omega
        exact ⟨_, _, .next hiter rfl (.done ⟨rfl, Int.le_of_eq hzero⟩),
          .single (Or.inr (Or.inl hzero)) hprog horders hcount, by simp, by simpa using hpool⟩
      · -- not exhausted: the level was used up
        have hq' : q' = [] := hd.used_up hf (Int.not_le.mp hdone) hk
        have hstore := hd.store
        have hlevel := hd.rep
        rw [hq'] at hrep₁ hstore hlevel
        obtain ⟨rounds, d₂, hrest⟩ := ih hrep₁ hd.taker_eq hstore
        have hgone : MatchRound.RemovesLevel taker.side.opposite
            ⟨(false, s, m), inner, false, (false, s₁, m₁)⟩ :=
          ⟨l, by rw [hview, putFront_removes hrep.wf hview hlevel hd.price hput]⟩
        refine ⟨_, d₂, .next hiter rfl hrest.runs, ?_, by simpa using hrest.fuel, ?_⟩
        · rw [List.flatten_cons, List.length_append]
          exact .cons hgone hprog hlen hrest.bounded
        · intro x hx
          rcases List.mem_cons.mp hx with rfl | hx
          · exact hpool
          · exact hrest.inner_fuel x hx

omit [LawfulLevelStore S] in
/-- The fuelled loop computes the end of the run. -/
theorem matchLoop_of_runs {rounds : List (MatchRound S)} {s : S} {m : Matching} {d : MatchState S}
    (h : Runs MatchDone (MatchIter pf policy symbol side now) (false, s, m) rounds d)
    (hpools : ∀ r ∈ rounds, r.info.length ≤ r.before.2.2.pool.nodes.length) {fuel : Nat}
    (hfuel : rounds.countP (fun r => !r.left) < fuel) :
    matchLoop pf policy symbol side now fuel s m = some d := by
  refine Runs.exec_eq (f := fun n d => matchLoop pf policy symbol side now n d.2.1 d.2.2) h
    ?_ ?_ hfuel
  · rintro ⟨killed, s, m⟩ n ⟨rfl, hrem⟩
    exact matchLoop_spent hrem
  · intro r hr n hiter
    have hpool := hpools r hr
    cases hiter with
    | empty hrem hfront => simp [matchLoop, hrem, hfront]
    | beyond hrem hfront hlimit => simp [matchLoop, hrem, hfront, hlimit]
    | @drain _ _ _ _ _ _ _ killed _ hrem hfront hlimit hdrain hput =>
      have hrun := drainLevel_of_runs hdrain (Nat.lt_succ_of_le hpool)
      simp only [matchLoop, if_pos hrem, hfront, if_neg hlimit, hrun, hput, Option.bind_eq_bind,
        Option.bind_some]
      cases killed <;> rfl

end matching

/-! ## Section 4: Every reachable book -/

/-- **Matching always terminates.**  In every book reached, whatever its policy
    and the taker, the loops of `match_against_book` have a finite run, which is
    what the operation computes.  Each iteration of the inner loop removes a
    resting order, exhausts the taker or ends the match, each of the outer loop
    removes its level, exhausts the taker or ends the match, and there is at
    most one of the former for each opposite order and one of the latter for
    each opposite level, not counting one that finds the side empty.  This is
    said of the source while fewer than `2 ^ 32 - 1` orders rest. -/
theorem matching_terminates (pf : Platform) (k : Approach) (b : k.Book)
    (hb : k.Reachable pf (fun _ => True) b) (taker : Order) (now : Clock) :
    ∃ rounds killed levels m,
      Runs MatchDone (MatchIter pf b.stpPolicy b.symbol taker.side.opposite now)
        (false, b.levels taker.side.opposite, ⟨taker, b.pool, b.idIndex, []⟩) rounds
        (killed, levels, m) ∧
      b.matchAgainstBook pf taker now = some (killed, m.taker, m.trades,
        b.replace taker.side.opposite levels m.pool m.idIndex) ∧
      Bounded taker.side.opposite (b.resting taker.side.opposite).length
        (levelCount (b.levels taker.side.opposite)) rounds := by
  obtain ⟨qs, hrep⟩ : b.Valid pf False := hb.valid fun _ _ hz => hz.elim
  have hside := hrep.sides taker.side.opposite
  have hstore := hrep.store_at taker.side.opposite
  obtain ⟨rounds, ⟨killed, levels, m⟩, hruns, hbound, hnext, hpools⟩ :=
    match_runs (m := ⟨taker, b.pool, b.idIndex, []⟩) b.stpPolicy b.symbol now hside rfl hstore
  -- every level has an order, and every order a slot of the pool
  have hfuel : rounds.countP (fun r => !r.left) < b.pool.nodes.length + 1 := by
    have h₁ := levels_length_le hside.levels
    have h₂ := hstore.part.length_eq
    simp only [List.length_append, List.length_range] at h₂
    omega
  refine ⟨rounds, killed, levels, m, hruns, ?_, ?_⟩
  · rw [OrderBook.matchAgainstBook, matchLoop_of_runs hruns hpools hfuel]
    rfl
  · rw [hrep.resting_eq, List.length_map, LawfulLevelStore.levelCount_eq hside.wf,
      hside.levels.length_eq]
    exact hbound

/-- A market order against two asks at one price, the first its owner's, and a
    third at another. -/
theorem matching_terminates_two_levels :
    ∃ b : Approach.vector.Book, Approach.vector.Reachable .int64 (fun _ => True) b ∧
      ∃ rounds killed levels m,
        Runs MatchDone (MatchIter .int64 b.stpPolicy b.symbol .sell fun _ => 1)
          (false, b.asks, ⟨⟨4, 0, 9, 9, 0, 1, 8, .buy, .market, .ioc⟩, b.pool, b.idIndex, []⟩)
          rounds (killed, levels, m) ∧
        (rounds.map fun r => r.info.length).sum ≤ 3 ∧ rounds.length ≤ 2 + 1 := by
  obtain ⟨replies, b, hrun, horders, hlevels⟩ := Approach.session_ends
    (P := fun b => (b.resting .sell).length = 3 ∧ levelCount b.asks = 2)
    (show ((Approach.vector.session .int64 1 90 110 4 .cancelResting
      [(.add ⟨1, 100, 5, 0, 0, 1, 8, .sell, .limit, .gtc⟩, fun _ => 0),
       (.add ⟨2, 100, 5, 0, 0, 1, 7, .sell, .limit, .gtc⟩, fun _ => 0),
       (.add ⟨3, 101, 8, 0, 0, 1, 7, .sell, .limit, .gtc⟩, fun _ => 0)]).any _) = true by
        decide +kernel)
  have hb : Approach.vector.Reachable .int64 (fun _ => True) b :=
    Approach.reachable_of_session (fun _ _ => trivial) hrun
  obtain ⟨rounds, killed, levels, m, hruns, -, hbound⟩ := matching_terminates .int64 .vector b hb
    ⟨4, 0, 9, 9, 0, 1, 8, .buy, .market, .ioc⟩ fun _ => 1
  have hinner := hbound.inner_count
  have houter := hbound.outer_count
  refine ⟨b, hb, rounds, killed, levels, m, hruns, Nat.le_trans hinner (Nat.le_of_eq horders), ?_⟩
  exact Nat.le_trans houter (Nat.le_of_eq (congrArg (· + 1) hlevels))

end LightningLob
