import LightningLob.Representation

/-! # The matching loops compute the reference fold

    One round of the inner loop is one step of the fold, so draining a level
    folds the taker over the level's queue; the outer loop does so level by
    level, best first, as far as the taker's limit reaches.

    The slots of the queues that are not being matched are framed out: `others`
    below are slots in use elsewhere, and they are left alone. -/

namespace LightningLob

/-! ## Section 1: Draining one level -/

/-- What draining a level whose queue folds to `r` leaves: the queue `q'`. -/
structure Drained (pf : Platform) (nz : Prop) (symbol : SymbolId) (taker : Order)
    (now : Nat → Timestamp) (others : List Nat) (level : PriceLevel) (m : Matching) (r : Fold)
    (level' : PriceLevel) (m' : Matching) (q' : List Nat) : Prop where
  taker_eq : m'.taker = { taker with remainingQuantity := r.remaining }
  trades : m'.trades = m.trades ++ tradesOf symbol taker now m.trades.length r.fills
  rep : LevelRep pf m'.pool level' q'
  price : level'.price = level.price
  orders : q'.map m'.pool.orderAt = r.rest
  store : Store nz m'.pool m'.idIndex (q' ++ others)
  frame : SameOn others m.pool m'.pool
  length : m'.pool.nodes.length = m.pool.nodes.length

section drain

variable {pf : Platform} {nz : Prop} {policy : SelfTradePrevention} {symbol : SymbolId}
  {price : Int} {now : Nat → Timestamp} {level : PriceLevel} {m : Matching} {q others : List Nat}
  {i : Nat}

/-- Taking the head of the queue out, its quantity already debited from the
    level. -/
theorem dropMaker_spec (hq : Queue m.pool level (i :: q))
    (htot : level.totalQuantity = pf.wrap (openQuantity m.pool q))
    (hs : Store nz m.pool m.idIndex (i :: q ++ others)) :
    ∃ level' m', dropMaker pf level m i (m.pool.orderAt i).id = some (level', m') ∧
      LevelRep pf m'.pool level' q ∧ level'.price = level.price ∧ m'.taker = m.taker ∧
      m'.trades = m.trades ∧ m'.pool.orderAt = m.pool.orderAt ∧
      Store nz m'.pool m'.idIndex (q ++ others) ∧ SameOn others m.pool m'.pool ∧
      m'.pool.nodes.length = m.pool.nodes.length := by
  -- unlink from the queue, erase from the index, release the slot, as the source does
  obtain ⟨level', p₁, hunlink, hq', hprice, htot', hlen, hfree, ho, hlinks⟩ :=
    levelUnlink_spec (a := []) hq
  have hi : i < p₁.nodes.length := by rw [hlen]; exact hq.lt i (by simp)
  obtain ⟨p₂, hrel, hnodes, hfree₂⟩ := OrderPool.release_spec pf hi
  have ho₂ : p₂.orderAt = m.pool.orderAt := (OrderPool.orderAt_congr hnodes).trans ho
  have hlen₂ : p₂.nodes.length = m.pool.nodes.length := by rw [hnodes, hlen]
  obtain ⟨found, ids', herase, hs'⟩ := hs.drop hlen₂ (by rw [hfree₂, hfree])
    (fun j _ => by rw [ho₂])
  have hsame : SameOn q p₁ p₂ :=
    ⟨fun j _ => by rw [OrderPool.orderAt_congr hnodes],
      fun j _ => by rw [OrderPool.next_congr hnodes],
      fun j _ => by rw [OrderPool.prev_congr hnodes]⟩
  -- the frame: slots of other queues are not neighbours of the maker's
  have hdisj : ∀ j ∈ others, j ∉ i :: q := by
    intro j hj hjq
    exact (List.nodup_append.mp hs.nodup).2.2 j hjq j hj rfl
  refine ⟨level', { m with pool := p₂, idIndex := ids' }, ?_,
    ⟨hq'.congr hsame (by rw [hnodes]), ?_⟩, hprice, rfl, rfl, ho₂, hs', ⟨?_, ?_, ?_⟩, hlen₂⟩
  · simp [dropMaker, hunlink, herase, hrel]
  · rw [htot', htot, openQuantity, openQuantity, ho₂]
  · intro j _; exact congrFun ho₂ j
  · intro j hj
    rw [OrderPool.next_congr hnodes]
    exact (hlinks j (by simpa using hdisj j hj)).1
  · intro j hj
    rw [OrderPool.prev_congr hnodes]
    exact (hlinks j (by simpa using hdisj j hj)).2

/-- The aggregate of a queue without its head. -/
theorem LevelRep.total_tail (h : LevelRep pf m.pool level (i :: q)) :
    pf.wrap (level.totalQuantity - (m.pool.orderAt i).remainingQuantity) =
      pf.wrap (openQuantity m.pool q) := by
  rw [h.total, sub_eq_add_neg, pf.wrap_add]
  congr 1
  simp [openQuantity]

/-- A round that meets the taker's own order and cancels it. -/
theorem drainStep_drop (symbol : SymbolId) (price : Int) (now : Nat → Timestamp)
    (h : LevelRep pf m.pool level (i :: q))
    (hs : Store nz m.pool m.idIndex (i :: q ++ others))
    (hself : selfTrade policy m.taker (m.pool.orderAt i) = true)
    (hpol : policy = .cancelResting ∨ policy = .cancelBoth) :
    ∃ level' m', drainStep pf policy symbol price now level m i =
        some (decide (policy = .cancelIncoming ∨ policy = .cancelBoth), level', m') ∧
      LevelRep pf m'.pool level' q ∧ level'.price = level.price ∧ m'.taker = m.taker ∧
      m'.trades = m.trades ∧ m'.pool.orderAt = m.pool.orderAt ∧
      Store nz m'.pool m'.idIndex (q ++ others) ∧ SameOn others m.pool m'.pool ∧
      m'.pool.nodes.length = m.pool.nodes.length := by
  have hi : i < m.pool.nodes.length := h.queue.lt i (by simp)
  obtain ⟨level', m', hrun, hspec⟩ := dropMaker_spec (h.queue.debited _) h.total_tail hs
  exact ⟨level', m', by simp [drainStep, OrderPool.get_eq hi, hself, hpol, hrun], hspec⟩

/-- A round that meets the taker's own order and kills the taker only. -/
theorem drainStep_keep (h : LevelRep pf m.pool level (i :: q))
    (hself : selfTrade policy m.taker (m.pool.orderAt i) = true) (hpol : policy = .cancelIncoming) :
    drainStep pf policy symbol price now level m i = some (true, level, m) := by
  have hi : i < m.pool.nodes.length := h.queue.lt i (by simp)
  subst hpol
  simp [drainStep, OrderPool.get_eq hi, hself]

/-- A round that trades `qty`, before the maker is looked at again. -/
theorem trade_spec (h : LevelRep pf m.pool level (i :: q))
    (hs : Store nz m.pool m.idIndex (i :: q ++ others)) (qty : Int) :
    ∃ level' pool', levelReduceQuantity pf level m.pool i qty = some (level', pool') ∧
      LevelRep pf pool' level' (i :: q) ∧ level'.price = level.price ∧
      pool'.orderAt i = { m.pool.orderAt i with
        remainingQuantity := (m.pool.orderAt i).remainingQuantity - qty } ∧
      SameOn (q ++ others) m.pool pool' ∧ Store nz pool' m.idIndex (i :: q ++ others) ∧
      pool'.nodes.length = m.pool.nodes.length := by
  obtain ⟨level', pool', hrun, hrep, hprice, hlen, hfree, ho, hnx, hpv⟩ :=
    levelReduceQuantity_spec pf (a := []) h qty
  have hi : ∀ j ∈ q ++ others, j ≠ i := by
    rintro j hj rfl
    exact (List.nodup_cons.mp hs.nodup).1 hj
  have hother : ∀ j ∈ q ++ others, pool'.orderAt j = m.pool.orderAt j := fun j hj => by
    rw [ho, Function.update_of_ne (hi j hj)]
  refine ⟨level', pool', hrun, hrep, hprice, by rw [ho, Function.update_self],
    ⟨hother, fun j _ => by rw [hnx], fun j _ => by rw [hpv]⟩, ?_, hlen⟩
  -- a trade changes no id, so the index still agrees with the slots
  refine hs.congr hlen hfree ?_
  intro j hj
  rw [List.cons_append, List.mem_cons] at hj
  rcases hj with rfl | hj
  · rw [ho, Function.update_self]
  · rw [hother j hj]

/-- The trade a round emits. -/
def Matching.trade (m : Matching) (symbol : SymbolId) (price : Int) (now : Nat → Timestamp)
    (maker : Order) (qty : Int) : Trade :=
  ⟨m.taker.id, maker.id, symbol, price, qty, now m.trades.length, m.taker.side,
    m.taker.participantId, maker.participantId⟩

/-- A round that fills the maker. -/
theorem drainStep_fill (symbol : SymbolId) (price : Int) (now : Nat → Timestamp)
    (h : LevelRep pf m.pool level (i :: q))
    (hs : Store nz m.pool m.idIndex (i :: q ++ others))
    (hself : selfTrade policy m.taker (m.pool.orderAt i) = false)
    (hle : (m.pool.orderAt i).remainingQuantity ≤ m.taker.remainingQuantity) :
    ∃ level' m', drainStep pf policy symbol price now level m i = some (false, level', m') ∧
      LevelRep pf m'.pool level' q ∧ level'.price = level.price ∧
      m'.taker = { m.taker with remainingQuantity :=
        m.taker.remainingQuantity - (m.pool.orderAt i).remainingQuantity } ∧
      m'.trades = m.trades ++ [m.trade symbol price now (m.pool.orderAt i)
        (m.pool.orderAt i).remainingQuantity] ∧
      q.map m'.pool.orderAt = q.map m.pool.orderAt ∧
      Store nz m'.pool m'.idIndex (q ++ others) ∧ SameOn others m.pool m'.pool ∧
      m'.pool.nodes.length = m.pool.nodes.length := by
  have hi : i < m.pool.nodes.length := h.queue.lt i (by simp)
  obtain ⟨l₁, p₁, hred, hrep₁, hprice₁, hmaker, hsame₁, hs₁, hlen₁⟩ :=
    trade_spec h hs (m.pool.orderAt i).remainingQuantity
  -- nothing is left of the maker, so the level's aggregate is its tail's
  have htot : l₁.totalQuantity = pf.wrap (openQuantity p₁ q) := by
    rw [hrep₁.total]
    simp [openQuantity, hmaker]
  have hmin : min m.taker.remainingQuantity (m.pool.orderAt i).remainingQuantity =
      (m.pool.orderAt i).remainingQuantity := min_eq_right hle
  obtain ⟨l₂, m₂, hdrop, hrep₂, hprice₂, htaker₂, htrades₂, ho₂, hs₂, hsame₂, hlen₂⟩ :=
    dropMaker_spec (m := ⟨{ m.taker with remainingQuantity :=
        m.taker.remainingQuantity - (m.pool.orderAt i).remainingQuantity }, p₁, m.idIndex,
      m.trades ++ [m.trade symbol price now (m.pool.orderAt i)
        (m.pool.orderAt i).remainingQuantity]⟩) hrep₁.queue htot hs₁
  have hid : (p₁.orderAt i).id = (m.pool.orderAt i).id := by rw [hmaker]
  rw [hid] at hdrop
  refine ⟨l₂, m₂, ?_, hrep₂, hprice₂.trans hprice₁, htaker₂, htrades₂, ?_, hs₂,
    hsame₁.right.trans hsame₂, hlen₂.trans hlen₁⟩
  · simp only [drainStep, OrderPool.get_eq hi, hself, hmin, hred, Option.bind_eq_bind,
      Option.bind_some, Bool.false_eq_true, if_false, sub_self, if_true, Option.pure_def]
    simp only [Matching.trade] at hdrop
    rw [hdrop]
    rfl
  · rw [ho₂]
    exact hsame₁.left.map_orderAt

/-- A round that exhausts the taker. -/
theorem drainStep_part (symbol : SymbolId) (price : Int) (now : Nat → Timestamp)
    (h : LevelRep pf m.pool level (i :: q))
    (hs : Store nz m.pool m.idIndex (i :: q ++ others))
    (hself : selfTrade policy m.taker (m.pool.orderAt i) = false)
    (hlt : m.taker.remainingQuantity < (m.pool.orderAt i).remainingQuantity) :
    ∃ level' m', drainStep pf policy symbol price now level m i = some (false, level', m') ∧
      LevelRep pf m'.pool level' (i :: q) ∧ level'.price = level.price ∧
      m'.taker = { m.taker with remainingQuantity := 0 } ∧
      m'.trades = m.trades ++ [m.trade symbol price now (m.pool.orderAt i)
        m.taker.remainingQuantity] ∧
      (i :: q).map m'.pool.orderAt = { m.pool.orderAt i with remainingQuantity :=
        (m.pool.orderAt i).remainingQuantity - m.taker.remainingQuantity } ::
          q.map m.pool.orderAt ∧
      Store nz m'.pool m'.idIndex (i :: q ++ others) ∧ SameOn others m.pool m'.pool ∧
      m'.pool.nodes.length = m.pool.nodes.length := by
  have hi : i < m.pool.nodes.length := h.queue.lt i (by simp)
  obtain ⟨l₁, p₁, hred, hrep₁, hprice₁, hmaker, hsame₁, hs₁, hlen₁⟩ :=
    trade_spec h hs m.taker.remainingQuantity
  have hmin : min m.taker.remainingQuantity (m.pool.orderAt i).remainingQuantity =
      m.taker.remainingQuantity := min_eq_left (Int.le_of_lt hlt)
  -- the maker outlives the taker and stays at the head of the queue
  have hleft : ¬ (m.pool.orderAt i).remainingQuantity - m.taker.remainingQuantity = 0 := by omega
  refine ⟨l₁, ⟨{ m.taker with remainingQuantity := 0 }, p₁, m.idIndex,
    m.trades ++ [m.trade symbol price now (m.pool.orderAt i) m.taker.remainingQuantity]⟩, ?_,
    hrep₁, hprice₁, rfl, rfl, ?_, hs₁, hsame₁.right, hlen₁⟩
  · simp only [drainStep, OrderPool.get_eq hi, hself, hmin, hred, Option.bind_eq_bind,
      Option.bind_some, Bool.false_eq_true, if_false, sub_self, hleft, Option.pure_def]
    rfl
  · rw [List.map_cons, hmaker]
    congr 1
    exact hsame₁.left.map_orderAt

/-- Nothing happens once the taker is exhausted or the queue is empty. -/
theorem drainLevel_spent {fuel : Nat} (hrem : m.taker.remainingQuantity ≤ 0) :
    drainLevel pf policy symbol price now (fuel + 1) level m = some (false, level, m) := by
  simp only [drainLevel, Int.not_lt.mpr hrem, if_false]
  cases level.head <;> rfl

/-- A round of the inner loop that does not kill the taker. -/
theorem drainLevel_step {fuel : Nat} {level' : PriceLevel} {m' : Matching}
    (hhead : level.head = some i) (hrem : 0 < m.taker.remainingQuantity)
    (hstep : drainStep pf policy symbol price now level m i = some (false, level', m')) :
    drainLevel pf policy symbol price now (fuel + 1) level m =
      drainLevel pf policy symbol price now fuel level' m' := by
  simp [drainLevel, hhead, hrem, hstep]

/-- A round of the inner loop that kills the taker. -/
theorem drainLevel_kill {fuel : Nat} {level' : PriceLevel} {m' : Matching}
    (hhead : level.head = some i) (hrem : 0 < m.taker.remainingQuantity)
    (hstep : drainStep pf policy symbol price now level m i = some (true, level', m')) :
    drainLevel pf policy symbol price now (fuel + 1) level m = some (true, level', m') := by
  simp [drainLevel, hhead, hrem, hstep]

/-- A queue that is left as it is. -/
theorem Drained.stay {taker : Order} {rem : Int} {makers : List Order}
    (hmap : q.map m.pool.orderAt = makers)
    (htaker : m.taker = { taker with remainingQuantity := rem })
    (hrep : LevelRep pf m.pool level q) (hs : Store nz m.pool m.idIndex (q ++ others))
    (killed : Bool) :
    Drained pf nz symbol taker now others level m ⟨[], [], makers, rem, killed⟩ level m q :=
  ⟨htaker, by simp [tradesOf], hrep, rfl, hmap, hs, SameOn.refl _ _, rfl⟩

/-- A round, and then what draining the rest leaves. -/
theorem Drained.after {taker : Order} {r r' : Fold} {l₁ l₂ : PriceLevel} {m₁ m₂ : Matching}
    {q₂ : List Nat} (hd : Drained pf nz symbol taker now others l₁ m₁ r l₂ m₂ q₂)
    (hprice : l₁.price = level.price) (hsame : SameOn others m.pool m₁.pool)
    (hlen : m₁.pool.nodes.length = m.pool.nodes.length) (hrem : r'.remaining = r.remaining)
    (hrest : r'.rest = r.rest)
    (htrades : m₁.trades ++ tradesOf symbol taker now m₁.trades.length r.fills =
      m.trades ++ tradesOf symbol taker now m.trades.length r'.fills) :
    Drained pf nz symbol taker now others level m r' l₂ m₂ q₂ where
  taker_eq := by rw [hd.taker_eq, hrem]
  trades := hd.trades.trans htrades
  rep := hd.rep
  price := hd.price.trans hprice
  orders := hd.orders.trans hrest.symm
  store := hd.store
  frame := hsame.trans hd.frame
  length := hd.length.trans hlen

/-- The inner loop folds the taker over the level's queue. -/
theorem drainLevel_spec (symbol : SymbolId) (now : Nat → Timestamp) {taker : Order} {rem : Int}
    {makers : List Order} {r : Fold} (hf : Folds policy taker rem makers r) :
    ∀ (fuel : Nat) {level : PriceLevel} {m : Matching} {q : List Nat},
      q.map m.pool.orderAt = makers → m.taker = { taker with remainingQuantity := rem } →
      LevelRep pf m.pool level q → Store nz m.pool m.idIndex (q ++ others) →
      (∀ o ∈ makers, o.price = price) → q.length < fuel →
      ∃ level' m' q', drainLevel pf policy symbol price now fuel level m =
          some (r.killed, level', m') ∧
        Drained pf nz symbol taker now others level m r level' m' q' := by
  -- induction on the fold: its first maker is the head of the queue
  induction hf with
  | nil =>
    intro fuel level m q hmap htaker hrep hs _ hfuel
    obtain ⟨fuel, rfl⟩ : ∃ n, fuel = n + 1 := ⟨fuel - 1, by omega⟩
    have hq : q = [] := List.map_eq_nil_iff.mp hmap
    -- no maker left: the loop ends on the null head
    have hhead : level.head = none := by rw [hrep.queue.head, hq]; rfl
    exact ⟨level, m, q, by simp [drainLevel, hhead], .stay hmap htaker hrep hs false⟩
  | spent hrem =>
    intro fuel level m q hmap htaker hrep hs _ hfuel
    obtain ⟨fuel, rfl⟩ : ∃ n, fuel = n + 1 := ⟨fuel - 1, by omega⟩
    exact ⟨level, m, q, drainLevel_spent (by rw [htaker]; exact hrem),
      .stay hmap htaker hrep hs false⟩
  | skip hrem hself hpol _ ih =>
    intro fuel level m q hmap htaker hrep hs hprice hfuel
    obtain ⟨i, q, rfl, rfl, htail⟩ := List.map_eq_cons_iff.mp hmap
    obtain ⟨fuel, rfl⟩ : ∃ n, fuel = n + 1 := ⟨fuel - 1, by omega⟩
    have hhead : level.head = some i := by rw [hrep.queue.head]; rfl
    -- CancelResting: the maker goes and the loop goes on
    obtain ⟨l₁, m₁, hstep, hrep₁, hprice₁, htaker₁, htrades₁, ho₁, hs₁, hsame₁, hlen₁⟩ :=
      drainStep_drop symbol price now hrep hs
        (by rw [htaker]; exact hself) (Or.inl hpol)
    obtain ⟨l₂, m₂, q₂, hrun, hd⟩ := ih fuel (by rw [ho₁]; exact htail)
      (htaker₁.trans htaker) hrep₁ hs₁ (fun o ho => hprice o (by simp [ho]))
      (by simpa using hfuel)
    refine ⟨l₂, m₂, q₂, ?_, hd.after hprice₁ hsame₁ hlen₁ rfl rfl (by rw [htrades₁])⟩
    rw [drainLevel_step hhead (by rw [htaker]; exact hrem) (by simpa [hpol] using hstep), hrun]
  | stop hrem hself hpol =>
    intro fuel level m q hmap htaker hrep hs _ hfuel
    obtain ⟨i, q, rfl, rfl, -⟩ := List.map_eq_cons_iff.mp hmap
    obtain ⟨fuel, rfl⟩ : ∃ n, fuel = n + 1 := ⟨fuel - 1, by omega⟩
    have hhead : level.head = some i := by rw [hrep.queue.head]; rfl
    -- CancelIncoming: the queue is left as it is
    refine ⟨level, m, i :: q, ?_, .stay hmap htaker hrep hs true⟩
    exact drainLevel_kill hhead (by rw [htaker]; exact hrem)
      (drainStep_keep hrep (by rw [htaker]; exact hself) hpol)
  | both hrem hself hpol =>
    intro fuel level m q hmap htaker hrep hs _ hfuel
    obtain ⟨i, q, rfl, rfl, htail⟩ := List.map_eq_cons_iff.mp hmap
    obtain ⟨fuel, rfl⟩ : ∃ n, fuel = n + 1 := ⟨fuel - 1, by omega⟩
    have hhead : level.head = some i := by rw [hrep.queue.head]; rfl
    -- CancelBoth: the maker goes and the taker is killed
    obtain ⟨l₁, m₁, hstep, hrep₁, hprice₁, htaker₁, htrades₁, ho₁, hs₁, hsame₁, hlen₁⟩ :=
      drainStep_drop symbol price now hrep hs
        (by rw [htaker]; exact hself) (Or.inr hpol)
    refine ⟨l₁, m₁, q, ?_, htaker₁.trans htaker, by simp [tradesOf, htrades₁], hrep₁, hprice₁,
      by rw [ho₁]; exact htail, hs₁, hsame₁, hlen₁⟩
    exact drainLevel_kill hhead (by rw [htaker]; exact hrem) (by simpa [hpol] using hstep)
  | fill hrem hself hle _ ih =>
    intro fuel level m q hmap htaker hrep hs hprice hfuel
    obtain ⟨i, q, rfl, rfl, htail⟩ := List.map_eq_cons_iff.mp hmap
    obtain ⟨fuel, rfl⟩ : ∃ n, fuel = n + 1 := ⟨fuel - 1, by omega⟩
    have hhead : level.head = some i := by rw [hrep.queue.head]; rfl
    obtain ⟨l₁, m₁, hstep, hrep₁, hprice₁, htaker₁, htrades₁, ho₁, hs₁, hsame₁, hlen₁⟩ :=
      drainStep_fill symbol price now hrep hs
        (by rw [htaker]; exact hself) (by rw [htaker]; exact hle)
    obtain ⟨l₂, m₂, q₂, hrun, hd⟩ := ih fuel (ho₁.trans htail)
      (by rw [htaker₁, htaker]) hrep₁ hs₁ (fun o ho => hprice o (by simp [ho]))
      (by simpa using hfuel)
    refine ⟨l₂, m₂, q₂, ?_, hd.after hprice₁ hsame₁ hlen₁ rfl rfl ?_⟩
    · rw [drainLevel_step hhead (by rw [htaker]; exact hrem) hstep, hrun]
    · rw [htrades₁]
      simp [tradesOf, Matching.trade, htaker, hprice (m.pool.orderAt i)]
  | part hrem hself hlt =>
    intro fuel level m q hmap htaker hrep hs hprice hfuel
    obtain ⟨i, q, rfl, rfl, htail⟩ := List.map_eq_cons_iff.mp hmap
    -- one more round, which finds the taker exhausted
    obtain ⟨fuel, rfl⟩ : ∃ n, fuel = n + 2 := ⟨fuel - 2, by simp at hfuel; omega⟩
    have hhead : level.head = some i := by rw [hrep.queue.head]; rfl
    obtain ⟨l₁, m₁, hstep, hrep₁, hprice₁, htaker₁, htrades₁, ho₁, hs₁, hsame₁, hlen₁⟩ :=
      drainStep_part symbol price now hrep hs
        (by rw [htaker]; exact hself) (by rw [htaker]; exact hlt)
    refine ⟨l₁, m₁, i :: q, ?_, by rw [htaker₁, htaker], ?_, hrep₁, hprice₁, ?_, hs₁, hsame₁,
      hlen₁⟩
    · rw [drainLevel_step hhead (by rw [htaker]; exact hrem) hstep]
      exact drainLevel_spent (by rw [htaker₁])
    · rw [htrades₁]
      simp [tradesOf, Matching.trade, htaker, hprice (m.pool.orderAt i)]
    · rw [ho₁, htail, htaker]

end drain

/-! ## Section 2: The matching loop -/

/-- What matching against a side whose reachable makers fold to `r` leaves:
    the queues `qs'`. -/
structure Matched {S : Type} [LevelStore S] [LawfulLevelStore S] (pf : Platform) (nz : Prop)
    (symbol : SymbolId) (taker : Order) (now : Nat → Timestamp) (others : List Nat)
    (makers : List Order) (s : S) (m : Matching) (r : Fold) (s' : S) (m' : Matching)
    (qs' : List (List Nat)) : Prop where
  taker_eq : m'.taker = { taker with remainingQuantity := r.remaining }
  trades : m'.trades = m.trades ++ tradesOf symbol taker now m.trades.length r.fills
  rep : SideRep pf m'.pool taker.side.opposite s' qs'
  orders : qs'.flatten.map m'.pool.orderAt = r.rest ++ beyond taker makers
  store : Store nz m'.pool m'.idIndex (qs'.flatten ++ others)
  frame : SameOn others m.pool m'.pool
  length : m'.pool.nodes.length = m.pool.nodes.length
  range_eq : LevelStore.inRange s' = LevelStore.inRange s

/-- What a fold leaves of placed makers is placed. -/
theorem Folds.placed {side : Side} {policy : SelfTradePrevention} {taker : Order} {rem price : Int}
    {makers : List Order} {r : Fold} (hf : Folds policy taker rem makers r)
    (h : ∀ o ∈ makers, Placed side price o) : ∀ o ∈ r.rest, Placed side price o := by
  intro o ho
  obtain ⟨m, hm, heq, hpos, -⟩ := hf.rest_spec ho
  obtain ⟨h₁, h₂, h₃, h₄, h₅⟩ := h m hm
  rw [heq]
  exact ⟨h₁, h₂, h₃, hpos h₄, h₅⟩

section matching

variable {S : Type} [LevelStore S] [LawfulLevelStore S] {pf : Platform} {nz : Prop}
  {policy : SelfTradePrevention} {symbol : SymbolId} {now : Nat → Timestamp} {taker : Order}
  {others : List Nat}

omit [LawfulLevelStore S] in
theorem matchLoop_spent {side : Side} {fuel : Nat} {s : S} {m : Matching}
    (hrem : m.taker.remainingQuantity ≤ 0) :
    matchLoop pf policy symbol side now (fuel + 1) s m = some (false, s, m) := by
  simp [matchLoop, Int.not_lt.mpr hrem]

/-- The loop's limit check is the reference's. -/
theorem limit_check {t : Order} {rem price : Int}
    (ht : t = { taker with remainingQuantity := rem }) :
    (t.type = .limit ∧ ¬ priceOk t price = true) ↔ reaches taker price = false := by
  have h : priceOk t price = priceOk taker price := by rw [ht]; rfl
  rw [h, ht]
  cases htype : taker.type <;> simp [reaches, htype]

/-- The side after its best level was drained: an emptied level is gone. -/
theorem putFront_drained {side : Side} {pool : OrderPool} {s : S} {l l' : PriceLevel}
    {ls : List PriceLevel} {q' : List Nat} {qs : List (List Nat)}
    (hwf : LawfulLevelStore.WF side s) (hview : LawfulLevelStore.view side s = l :: ls)
    (hrep : LevelRep pf pool l' q') (hprice : l'.price = l.price)
    (hplaced : ∀ i ∈ q', Placed side l'.price (pool.orderAt i))
    (hls : List.Forall₂ (LevelOk pf pool side) ls qs) :
    ∃ s', LevelStore.putFront side s l' = some s' ∧
      LevelStore.inRange s' = LevelStore.inRange s ∧
      SideRep pf pool side s' (if q' = [] then qs else q' :: qs) := by
  obtain ⟨s', hrun, hwf', hview', hrange⟩ :=
    LawfulLevelStore.putFront_spec hwf hview hprice hrep.clean
  refine ⟨s', hrun, hrange, hwf', ?_⟩
  rw [hview']
  by_cases hq : q' = []
  · rw [if_pos (hrep.empty_iff.mpr hq), if_pos hq]
    exact hls
  · rw [if_neg (fun h => hq (hrep.empty_iff.mp h)), if_neg hq]
    exact .cons ⟨hrep, hq, hplaced⟩ hls

theorem flatten_drained (q' : List Nat) (qs : List (List Nat)) :
    (if q' = [] then qs else q' :: qs).flatten = q' ++ qs.flatten := by
  by_cases hq : q' = [] <;> simp [hq]

/-- Where the best level is out of reach, so is everything. -/
theorem reachable_eq_nil {os : List Order} (h : ∀ o ∈ os, reaches taker o.price = false) :
    reachable taker os = [] ∧ beyond taker os = os := by
  constructor
  · rw [reachable, List.filter_eq_nil_iff]
    intro o ho
    simp [h o ho]
  · rw [beyond, List.filter_eq_self]
    intro o ho
    simp [h o ho]

theorem reachable_append {xs : List Order} (ys : List Order)
    (h : ∀ o ∈ xs, reaches taker o.price = true) :
    reachable taker (xs ++ ys) = xs ++ reachable taker ys ∧
      beyond taker (xs ++ ys) = beyond taker ys := by
  constructor
  · rw [reachable, List.filter_append, List.filter_eq_self.mpr h]
    rfl
  · rw [beyond, List.filter_append, List.filter_eq_nil_iff.mpr (by simpa using h)]
    rfl

/-- The best level of a side within reach is drained and written back. -/
theorem SideRep.drain_front (symbol : SymbolId) (now : Nat → Timestamp) {q : List Nat}
    {qs : List (List Nat)} {s : S} {m : Matching} {rem : Int} {r : Fold}
    (hrep : SideRep pf m.pool taker.side.opposite s (q :: qs))
    (htaker : m.taker = { taker with remainingQuantity := rem })
    (hs : Store nz m.pool m.idIndex ((q :: qs).flatten ++ others))
    (hf : Folds policy taker rem (q.map m.pool.orderAt) r) :
    ∃ l ls s₁ m₁ l' q', LevelOk pf m.pool taker.side.opposite l q ∧
      LawfulLevelStore.view taker.side.opposite s = l :: ls ∧
      drainLevel pf policy symbol l.price now (m.pool.nodes.length + 1) l m =
        some (r.killed, l', m₁) ∧
      LevelStore.putFront taker.side.opposite s l' = some s₁ ∧
      SideRep pf m₁.pool taker.side.opposite s₁ (if q' = [] then qs else q' :: qs) ∧
      LevelStore.inRange s₁ = LevelStore.inRange s ∧
      Drained pf nz symbol taker now (qs.flatten ++ others) l m r l' m₁ q' := by
  obtain ⟨l, ls, hl, hls, hview⟩ := List.forall₂_cons_right_iff.mp hrep.levels
  have hplaced : ∀ o ∈ q.map m.pool.orderAt, Placed taker.side.opposite l.price o := by
    intro o ho
    obtain ⟨i, hi, rfl⟩ := List.mem_map.mp ho
    exact hl.placed i hi
  have hs' : Store nz m.pool m.idIndex (q ++ (qs.flatten ++ others)) := by
    simpa using hs
  -- a queue is no longer than the pool, so the inner loop's fuel is enough
  have hlen : q.length < m.pool.nodes.length + 1 := Nat.lt_succ_of_le hl.rep.queue.length_le
  obtain ⟨l', m₁, q', hdrain, hd⟩ := drainLevel_spec symbol now hf _
    rfl htaker hl.rep hs' (fun o ho => (hplaced o ho).price_eq) hlen
  -- what is left at the level is still placed there
  have hplaced' : ∀ i ∈ q', Placed taker.side.opposite l'.price (m₁.pool.orderAt i) := by
    intro i hi
    rw [hd.price]
    exact hf.placed hplaced _ (hd.orders ▸ List.mem_map_of_mem hi)
  obtain ⟨s₁, hput, hrange, hrep₁⟩ := putFront_drained hrep.wf hview hd.rep hd.price hplaced'
    (levels_congr hls hd.frame.left (Nat.le_of_eq hd.length.symm))
  exact ⟨l, ls, s₁, m₁, l', q', hl, hview, hdrain, hput, hrep₁, hrange, hd⟩

/-- One round of the outer loop: the best level is drained, and the loop goes
    on unless self-trade prevention killed the taker. -/
theorem matchLoop_round (symbol : SymbolId) (now : Nat → Timestamp) (fuel : Nat) {q : List Nat}
    {qs : List (List Nat)} {s : S} {m : Matching} {rem : Int} {r : Fold}
    (hrep : SideRep pf m.pool taker.side.opposite s (q :: qs))
    (htaker : m.taker = { taker with remainingQuantity := rem })
    (hs : Store nz m.pool m.idIndex ((q :: qs).flatten ++ others)) (hrem : 0 < rem)
    (hreach : ∀ o ∈ q.map m.pool.orderAt, reaches taker o.price = true)
    (hf : Folds policy taker rem (q.map m.pool.orderAt) r) :
    ∃ s₁ m₁ q', matchLoop pf policy symbol taker.side.opposite now (fuel + 1) s m =
        (if r.killed then some (true, s₁, m₁)
         else matchLoop pf policy symbol taker.side.opposite now fuel s₁ m₁) ∧
      SideRep pf m₁.pool taker.side.opposite s₁ (if q' = [] then qs else q' :: qs) ∧
      LevelStore.inRange s₁ = LevelStore.inRange s ∧
      ∃ l l', Drained pf nz symbol taker now (qs.flatten ++ others) l m r l' m₁ q' := by
  obtain ⟨l, ls, s₁, m₁, l', q', hl, hview, hdrain, hput, hrep₁, hrange, hd⟩ :=
    hrep.drain_front symbol now htaker hs hf
  refine ⟨s₁, m₁, q', ?_, hrep₁, hrange, l, l', hd⟩
  obtain ⟨i, hi⟩ := List.exists_mem_of_ne_nil q hl.ne
  have hok : reaches taker l.price = true := by
    have := hreach _ (List.mem_map_of_mem hi)
    rwa [(hl.placed i hi).price_eq] at this
  -- the loop's limit check passes: the level is within reach
  have hcheck : ¬ (m.taker.type = .limit ∧ ¬ priceOk m.taker l.price = true) := by
    rw [limit_check htaker, hok]
    simp
  have hpos : m.taker.remainingQuantity > 0 := by rw [htaker]; exact hrem
  rw [matchLoop, if_pos hpos, LawfulLevelStore.front_eq hrep.wf, hview]
  simp only [List.head?_cons, Option.map_some, Option.bind_eq_bind, Option.bind_some,
    if_neg hcheck, hdrain, hput]
  cases r.killed <;> rfl

/-- If the head of a side is out of reach, the whole side is. -/
theorem Priority.out_of_reach {o : Order} {os : List Order}
    (h : Priority taker.side.opposite (o :: os)) (ho : reaches taker o.price = false) :
    ∀ x ∈ o :: os, reaches taker x.price = false := by
  intro x hx
  rcases List.mem_cons.mp hx with rfl | hx
  · exact ho
  · by_contra hc
    have := reaches_of_not_better ((List.pairwise_cons.mp h).1 x hx) (by simpa using hc)
    rw [ho] at this
    cases this

/-- The outer loop stops at a level beyond the limit. -/
theorem matchLoop_beyond {q : List Nat} {qs : List (List Nat)} {fuel : Nat} {s : S} {m : Matching}
    {rem : Int} (hrep : SideRep pf m.pool taker.side.opposite s (q :: qs))
    (htaker : m.taker = { taker with remainingQuantity := rem }) (hrem : 0 < rem) {l : PriceLevel}
    {ls : List PriceLevel} (hview : LawfulLevelStore.view taker.side.opposite s = l :: ls)
    (hout : reaches taker l.price = false) :
    matchLoop pf policy symbol taker.side.opposite now (fuel + 1) s m = some (false, s, m) := by
  have hpos : m.taker.remainingQuantity > 0 := by rw [htaker]; exact hrem
  have hcheck := (limit_check htaker).mpr hout
  rw [matchLoop, if_pos hpos, LawfulLevelStore.front_eq hrep.wf, hview]
  simp only [List.head?_cons, Option.map_some, Option.bind_eq_bind, Option.bind_some,
    if_pos hcheck]
  rfl

section levels

variable {q q' : List Nat} {qs qs₂ : List (List Nat)} {s s₁ s₂ : S} {m m₁ m₂ : Matching}
  {l l' : PriceLevel} {r₁ r₂ : Fold}

/-- A side that is left as it is, no maker being in reach or the taker spent. -/
theorem Matched.stay {rem : Int} {rest : List Order}
    (hrep : SideRep pf m.pool taker.side.opposite s qs)
    (htaker : m.taker = { taker with remainingQuantity := rem })
    (hs : Store nz m.pool m.idIndex (qs.flatten ++ others))
    (hrest : qs.flatten.map m.pool.orderAt =
      rest ++ beyond taker (qs.flatten.map m.pool.orderAt)) :
    Matched pf nz symbol taker now others (qs.flatten.map m.pool.orderAt) s m
      ⟨[], [], rest, rem, false⟩ s m qs :=
  ⟨htaker, by simp [tradesOf], hrep, hrest, hs, SameOn.refl _ _, rfl, rfl⟩

/-- The fold ended within the best level: the rest of the side is as it was. -/
theorem Drained.matched_done
    (hd : Drained pf nz symbol taker now (qs.flatten ++ others) l m r₁ l' m₁ q')
    (hrep : SideRep pf m₁.pool taker.side.opposite s₁ (if q' = [] then qs else q' :: qs))
    (hrange : LevelStore.inRange s₁ = LevelStore.inRange s)
    (hreach : ∀ o ∈ q.map m.pool.orderAt, reaches taker o.price = true)
    (hprio : Priority taker.side.opposite (qs.flatten.map m.pool.orderAt)) :
    Matched pf nz symbol taker now others ((q :: qs).flatten.map m.pool.orderAt) s m
      { r₁ with rest := r₁.rest ++ reachable taker (qs.flatten.map m.pool.orderAt) } s₁ m₁
      (if q' = [] then qs else q' :: qs) where
  taker_eq := hd.taker_eq
  trades := hd.trades
  rep := hrep
  orders := by
    rw [flatten_drained, List.map_append, hd.orders, hd.frame.left.map_orderAt, List.flatten_cons,
      List.map_append, (reachable_append _ hreach).2, List.append_assoc, hprio.split]
  store := by
    rw [flatten_drained, List.append_assoc]
    exact hd.store
  frame := hd.frame.right
  length := hd.length
  range_eq := hrange

/-- The best level was used up, and the rest of the side matched after it. -/
theorem Drained.matched_more
    (hd : Drained pf nz symbol taker now (qs.flatten ++ others) l m r₁ l' m₁ q')
    (hrange : LevelStore.inRange s₁ = LevelStore.inRange s)
    (hreach : ∀ o ∈ q.map m.pool.orderAt, reaches taker o.price = true)
    (hm : Matched pf nz symbol taker now others (qs.flatten.map m₁.pool.orderAt) s₁ m₁ r₂ s₂ m₂
      qs₂) :
    Matched pf nz symbol taker now others ((q :: qs).flatten.map m.pool.orderAt) s m
      { r₂ with fills := r₁.fills ++ r₂.fills, dropped := r₁.dropped ++ r₂.dropped } s₂ m₂
      qs₂ where
  taker_eq := hm.taker_eq
  trades := by
    -- the clock has been read once for each trade of the best level
    rw [hm.trades, hd.trades]
    simp only [List.length_append, tradesOf_length, tradesOf_append, List.append_assoc]
  rep := hm.rep
  orders := by
    rw [hm.orders, hd.frame.left.map_orderAt, List.flatten_cons, List.map_append,
      (reachable_append _ hreach).2]
  store := hm.store
  frame := hd.frame.right.trans hm.frame
  length := hm.length.trans hd.length
  range_eq := hm.range_eq.trans hrange

end levels

/-- A taker that is still open, and was not killed, has used the level up. -/
theorem Drained.used_up {level level' : PriceLevel} {m m' : Matching} {r : Fold} {q' : List Nat}
    {rem : Int} {makers : List Order} {now : Nat → Timestamp} {symbol : SymbolId}
    (hd : Drained pf nz symbol taker now others level m r level' m' q')
    (hf : Folds policy taker rem makers r) (hrem : 0 < r.remaining) (hk : r.killed = false) :
    q' = [] := by
  have hrest := hf.rest_eq_nil hrem hk
  rw [← hd.orders] at hrest
  exact List.map_eq_nil_iff.mp hrest

/-- The outer loop folds the taker over the side's reachable makers. -/
theorem matchLoop_spec (symbol : SymbolId) (now : Nat → Timestamp) :
    ∀ {qs : List (List Nat)} (fuel : Nat) {s : S} {m : Matching} {rem : Int} {r : Fold},
      SideRep pf m.pool taker.side.opposite s qs →
      m.taker = { taker with remainingQuantity := rem } →
      Store nz m.pool m.idIndex (qs.flatten ++ others) → qs.length < fuel →
      Folds policy taker rem (reachable taker (qs.flatten.map m.pool.orderAt)) r →
      ∃ s' m' qs', matchLoop pf policy symbol taker.side.opposite now fuel s m =
          some (r.killed, s', m') ∧
        Matched pf nz symbol taker now others (qs.flatten.map m.pool.orderAt) s m r s' m' qs' := by
  -- induction on the levels: each round drains the best one
  intro qs
  induction qs with
  | nil =>
    intro fuel s m rem r hrep htaker hs hfuel hf
    obtain ⟨fuel, rfl⟩ : ∃ n, fuel = n + 1 := ⟨fuel - 1, by omega⟩
    -- no level left: `front` reports an empty side
    have hview : LawfulLevelStore.view taker.side.opposite s = [] :=
      List.forall₂_nil_right_iff.mp hrep.levels
    have hr : r = ⟨[], [], [], rem, false⟩ := hf.eq_fold
    subst hr
    refine ⟨s, m, [], ?_, .stay hrep htaker hs (by simp [beyond])⟩
    by_cases hrem : 0 < m.taker.remainingQuantity
    · simp [matchLoop, hrem, LawfulLevelStore.front_eq hrep.wf, hview]
    · exact matchLoop_spent (by omega)
  | cons q qs ih =>
    intro fuel s m rem r hrep htaker hs hfuel hf
    obtain ⟨fuel, rfl⟩ : ∃ n, fuel = n + 1 := ⟨fuel - 1, by omega⟩
    have hprio := hrep.priority
    by_cases hrem : rem ≤ 0
    -- the taker was exhausted before this level
    · have hr : r = _ := hf.eq_fold.trans (Folds.spent hrem).eq_fold.symm
      subst hr
      exact ⟨s, m, q :: qs, matchLoop_spent (by rw [htaker]; exact hrem),
        .stay hrep htaker hs hprio.split.symm⟩
    obtain ⟨l, ls, hl, hls, hview⟩ := List.forall₂_cons_right_iff.mp hrep.levels
    by_cases hok : reaches taker l.price = true
    · -- the level is within reach: drain it
      have hreach : ∀ o ∈ q.map m.pool.orderAt, reaches taker o.price = true := by
        intro o ho
        obtain ⟨i, hi, rfl⟩ := List.mem_map.mp ho
        rw [(hl.placed i hi).price_eq]
        exact hok
      have hf₁ := fold_folds policy taker rem (q.map m.pool.orderAt)
      obtain ⟨s₁, m₁, q', hround, hrep₁, hrange₁, l₀, l₁, hd⟩ := matchLoop_round symbol now
        fuel hrep htaker hs (by omega) hreach hf₁
      generalize fold policy taker rem (q.map m.pool.orderAt) = r₁ at hf₁ hround hd
      rw [List.flatten_cons, List.map_append] at hf hprio
      rw [(reachable_append _ hreach).1] at hf
      by_cases hdone : r₁.killed = true ∨ r₁.remaining ≤ 0
      · -- the fold ends within this level
        have hr := hf.eq_fold.trans (hf₁.append_done hdone _).eq_fold.symm
        subst hr
        refine ⟨s₁, m₁, _, ?_, hd.matched_done hrep₁ hrange₁ hreach
          (hprio.sublist (List.sublist_append_right _ _))⟩
        rw [hround]
        cases hk : r₁.killed with
        | true => rfl
        | false =>
          obtain ⟨fuel, rfl⟩ : ∃ n, fuel = n + 1 := ⟨fuel - 1, by simp at hfuel; omega⟩
          refine matchLoop_spent ?_
          rw [hd.taker_eq]
          simpa [hk] using hdone
      · -- the level is used up and the taker is not: on to the next
        have hk : r₁.killed = false := by simpa using fun h => hdone (Or.inl h)
        have hpos : 0 < r₁.remaining := by
          by_contra hc
          exact hdone (Or.inr (by omega))
        have hq' : q' = [] := hd.used_up hf₁ hpos hk
        have hf₂ := fold_folds policy taker r₁.remaining
          (reachable taker (qs.flatten.map m.pool.orderAt))
        generalize fold policy taker r₁.remaining _ = r₂ at hf₂
        have hr := hf.eq_fold.trans (hf₁.append_more hk hpos hf₂).eq_fold.symm
        subst hr
        have hstore := hd.store
        rw [hq'] at hrep₁ hstore
        obtain ⟨s₂, m₂, qs₂, hrun, hm⟩ := ih fuel hrep₁ hd.taker_eq hstore
          (by simpa using hfuel) (by rw [hd.frame.left.map_orderAt]; exact hf₂)
        rw [hk] at hround
        exact ⟨s₂, m₂, qs₂, hround.trans hrun, hd.matched_more hrange₁ hreach hm⟩
    · -- the best level is beyond the limit, and so are the others
      obtain ⟨i, q, rfl⟩ := List.exists_cons_of_ne_nil hl.ne
      have hprice := (hl.placed i (by simp)).price_eq
      obtain ⟨hnone, hall⟩ :=
        reachable_eq_nil (hprio.out_of_reach (by rw [hprice]; simpa using hok))
      have hr : r = ⟨[], [], [], rem, false⟩ := by
        rw [hf.eq_fold]
        exact congrArg (fold policy taker rem) hnone
      subst hr
      exact ⟨s, m, (i :: q) :: qs,
        matchLoop_beyond hrep htaker (by omega) hview (by simpa using hok),
        .stay hrep htaker hs hall.symm⟩

end matching

end LightningLob
