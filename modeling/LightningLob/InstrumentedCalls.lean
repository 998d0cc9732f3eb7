import LightningLob.Instrumentation
import LightningLob.Termination

/-! # Instrumented calls follow the plain ones

    A probe is sound if it lets pass every access to a slot in use and every
    release of one, and keeps an invariant of its ghost state along.  From a
    valid book an operation touches no other slot, so the instrumented call
    returns what the plain one returns. -/

namespace LightningLob

open LevelStore Ghost

/-! ## Section 1: Sound probes -/

namespace OrderPool

/-- A slot in use: in the pool, and not on the free list. -/
def Live (p : OrderPool) (i : Nat) : Prop := i < p.nodes.length ∧ i ∉ p.freeList

/-- The free list holds distinct slots of the pool. -/
structure Intact (p : OrderPool) : Prop where
  nodup : p.freeList.Nodup
  lt : ∀ i ∈ p.freeList, i < p.nodes.length

/-- The same slots are free, of as many, and nothing was reallocated. -/
structure SameStorage (p p' : OrderPool) : Prop where
  size : p'.nodes.length = p.nodes.length
  free : p'.freeList = p.freeList
  nodesCapacity : p'.nodesCapacity = p.nodesCapacity
  freeCapacity : p'.freeCapacity = p.freeCapacity

theorem SameStorage.refl (p : OrderPool) : SameStorage p p := ⟨rfl, rfl, rfl, rfl⟩

theorem SameStorage.trans {p p' p'' : OrderPool} (h : SameStorage p p')
    (h' : SameStorage p' p'') : SameStorage p p'' :=
  ⟨h'.size.trans h.size, h'.free.trans h.free, h'.nodesCapacity.trans h.nodesCapacity,
    h'.freeCapacity.trans h.freeCapacity⟩

theorem SameStorage.live {p p' : OrderPool} (h : SameStorage p p') {i : Nat} (hi : p.Live i) :
    p'.Live i := by
  unfold Live
  rw [h.size, h.free]
  exact hi

theorem SameStorage.intact {p p' : OrderPool} (h : SameStorage p p') (hp : p.Intact) :
    p'.Intact := by
  refine ⟨h.free ▸ hp.nodup, ?_⟩
  rw [h.free, h.size]
  exact hp.lt

theorem update_storage {p p' : OrderPool} {i : Nat} {f : OrderNode → OrderNode}
    (h : p.update i f = some p') : SameStorage p p' := by
  obtain ⟨n, -, rfl⟩ := Option.map_eq_some_iff.mp h
  exact ⟨by simp, rfl, rfl, rfl⟩

end OrderPool

open OrderPool (SameStorage)

/-- The probe lets pass what is done to slots in use and to levels with orders,
    and keeps `I`.  Only a strict one may refuse the null id. -/
structure Probe.Sound {G : Type} (pr : Probe G) (pf : Platform) (strict : Prop)
    (I : G → OrderPool → Prop) : Prop where
  get : ∀ {p i}, p.Live i → pr.get p i = p.get i
  update : ∀ {p i} (f : OrderNode → OrderNode), p.Live i → pr.update p i f = p.update i f
  keep : ∀ {g p p'}, I g p → SameStorage p p' → I g p'
  acquire : ∀ {g p} (order : Order), p.Intact → I g p →
    Follows (fun g' r => I g' r.2) g (pr.acquire p order) (p.acquire pf order)
  release : ∀ {g p i}, p.Intact → p.Live i → I g p →
    Follows I g (pr.release p i) (p.release pf i)
  reset : ∀ {g p}, I g p → Follows I g (pr.reset p) (some p.reset)
  insert : ∀ {ids : IdIndexMap} {id : OrderId} {idx : Nat}, (strict → id ≠ kInvalidOrderId) →
    pr.insert ids id idx = ids.insert id idx
  found : ∀ {l : PriceLevel}, l.empty = false → pr.found l l.price = some ()

theorem Store.live {nz : Prop} {pool : OrderPool} {ids : IdIndexMap} {live : List Nat} {i : Nat}
    (h : Store nz pool ids live) (hi : i ∈ live) : pool.Live i :=
  h.live_iff.mp hi

theorem Store.intact {nz : Prop} {pool : OrderPool} {ids : IdIndexMap} {live : List Nat}
    (h : Store nz pool ids live) : pool.Intact :=
  ⟨h.free_nodup, fun _ hi => h.free_lt hi⟩

/-! ## Section 2: Queue operations -/

section queues

variable {G : Type} {pr : Probe G} {pf : Platform} {strict : Prop} {I : G → OrderPool → Prop}
  {pool pool' : OrderPool} {level level' : PriceLevel} {i : Nat}

theorem setNext_storage {link v : Option Nat} (h : pool.setNext link v = some pool') :
    SameStorage pool pool' := by
  cases link with
  | none =>
    cases h
    exact .refl _
  | some j => exact OrderPool.update_storage h

theorem setPrev_storage {link v : Option Nat} (h : pool.setPrev link v = some pool') :
    SameStorage pool pool' := by
  cases link with
  | none =>
    cases h
    exact .refl _
  | some j => exact OrderPool.update_storage h

theorem setNext_probed (hpr : pr.Sound pf strict I) {link : Option Nat} (v : Option Nat)
    (h : ∀ j, link = some j → pool.Live j) : pr.setNext pool link v = pool.setNext link v := by
  cases link with
  | none => rfl
  | some j => exact hpr.update _ (h j rfl)

theorem setPrev_probed (hpr : pr.Sound pf strict I) {link : Option Nat} (v : Option Nat)
    (h : ∀ j, link = some j → pool.Live j) : pr.setPrev pool link v = pool.setPrev link v := by
  cases link with
  | none => rfl
  | some j => exact hpr.update _ (h j rfl)

/-- A slot is unlinked through its neighbours in the queue. -/
theorem levelUnlink_probed (hpr : pr.Sound pf strict I) {a b : List Nat}
    (h : Queue pool level (a ++ i :: b)) (hlive : ∀ j ∈ a ++ i :: b, pool.Live j) :
    pr.levelUnlink level pool i = levelUnlink level pool i := by
  have hi := hlive i (by simp)
  have hnext : pool.next i = b.head? := h.next.at_middle
  have hprev : pool.prev i = a.getLast? := by
    have hrev := h.prev
    rw [show (a ++ i :: b).reverse = b.reverse ++ i :: a.reverse by simp] at hrev
    rw [hrev.at_middle, List.head?_reverse]
  unfold Probe.levelUnlink levelUnlink
  rw [hpr.get hi, OrderPool.get_eq hi.1]
  simp only [Option.bind_eq_bind, Option.bind_some, hnext, hprev]
  rw [setNext_probed hpr _ fun j hj => hlive j (by simp [List.mem_of_getLast? hj])]
  refine Option.bind_congr fun p hp => ?_
  rw [setPrev_probed hpr _ fun j hj =>
    (setNext_storage hp).live (hlive j (by simp [List.mem_of_head? hj]))]

theorem levelUnlink_storage (h : levelUnlink level pool i = some (level', pool')) :
    SameStorage pool pool' := by
  obtain ⟨n, -, h⟩ := Option.bind_eq_some_iff.mp h
  obtain ⟨p₁, h₁, h⟩ := Option.bind_eq_some_iff.mp h
  obtain ⟨p₂, h₂, h⟩ := Option.bind_eq_some_iff.mp h
  cases h
  exact (setNext_storage h₁).trans (setPrev_storage h₂)

theorem levelReduceQuantity_probed (hpr : pr.Sound pf strict I) (hi : pool.Live i)
    (qty : Int) :
    pr.levelReduceQuantity pf level pool i qty = levelReduceQuantity pf level pool i qty := by
  unfold Probe.levelReduceQuantity levelReduceQuantity
  rw [hpr.update _ hi]

theorem levelReduceQuantity_storage {qty : Int}
    (h : levelReduceQuantity pf level pool i qty = some (level', pool')) :
    SameStorage pool pool' := by
  obtain ⟨p₁, h₁, h⟩ := Option.bind_eq_some_iff.mp h
  cases h
  exact OrderPool.update_storage h₁

/-- A slot is appended through the tail of the queue. -/
theorem levelPushBack_probed (hpr : pr.Sound pf strict I) (hi : pool.Live i)
    (htail : ∀ j, level.tail = some j → pool.Live j) :
    pr.levelPushBack pf level pool i = levelPushBack pf level pool i := by
  unfold Probe.levelPushBack levelPushBack
  rw [hpr.get hi, hpr.update _ hi]
  refine Option.bind_congr fun n _ => Option.bind_congr fun p hp => ?_
  rw [setNext_probed hpr _ fun j hj => (OrderPool.update_storage hp).live (htail j hj)]

theorem levelPushBack_storage (h : levelPushBack pf level pool i = some (level', pool')) :
    SameStorage pool pool' := by
  obtain ⟨n, -, h⟩ := Option.bind_eq_some_iff.mp h
  obtain ⟨p₁, h₁, h⟩ := Option.bind_eq_some_iff.mp h
  obtain ⟨p₂, h₂, h⟩ := Option.bind_eq_some_iff.mp h
  cases h
  exact (OrderPool.update_storage h₁).trans (setNext_storage h₂)

end queues

/-! ## Section 3: Matching -/

section drain

variable {G : Type} {pr : Probe G} {pf : Platform} {strict nz : Prop} {I : G → OrderPool → Prop}
  {policy : SelfTradePrevention} {symbol : SymbolId} {price : Int} {now : Nat → Timestamp}
  {level : PriceLevel} {m : Matching} {q others : List Nat} {i : Nat} {g : G}

theorem dropMaker_follows (hpr : pr.Sound pf strict I) (hq : Queue m.pool level (i :: q))
    (hs : Store nz m.pool m.idIndex (i :: q ++ others)) (hI : I g m.pool) (id : OrderId) :
    Follows (fun g' r => I g' r.2.pool) g (pr.dropMaker level m i id)
      (dropMaker pf level m i id) := by
  have hlive : ∀ j ∈ [] ++ i :: q, m.pool.Live j := fun j hj => hs.live (by simp at hj ⊢; tauto)
  unfold Probe.dropMaker dropMaker
  refine .lift_bind (levelUnlink_probed hpr (a := []) hq hlive) fun ⟨level', pool⟩ hunlink => ?_
  refine .lift_bind rfl fun ⟨_, ids⟩ _ => ?_
  -- unlinking moved no slot to the free list
  have hsame := levelUnlink_storage hunlink
  refine .bind (hpr.release (hsame.intact hs.intact) (hsame.live (hlive i (by simp)))
    (hpr.keep hI hsame)) fun pool' g' _ hI' => ?_
  exact .pure hI'

theorem drainStep_follows (hpr : pr.Sound pf strict I) (hrep : LevelRep pf m.pool level (i :: q))
    (hs : Store nz m.pool m.idIndex (i :: q ++ others)) (hI : I g m.pool) :
    Follows (fun g' r => I g' r.2.2.pool) g (pr.drainStep pf policy symbol price now level m i)
      (drainStep pf policy symbol price now level m i) := by
  have hi : m.pool.Live i := hs.live (by simp)
  unfold Probe.drainStep drainStep
  refine .lift_bind (hpr.get hi) fun node hnode => ?_
  rw [OrderPool.get_eq hi.1] at hnode
  cases hnode
  by_cases hself : selfTrade policy m.taker (m.pool.orderAt i) = true
  · rw [if_pos hself, if_pos hself]
    by_cases hpol : policy = .cancelResting ∨ policy = .cancelBoth
    · rw [if_pos hpol, if_pos hpol]
      refine .bind (dropMaker_follows hpr (hrep.queue.debited _) hs hI _)
        fun ⟨level', m'⟩ g' _ hI' => ?_
      exact .pure hI'
    · rw [if_neg hpol, if_neg hpol]
      exact .pure hI
  · rw [if_neg hself, if_neg hself]
    refine .lift_bind (levelReduceQuantity_probed hpr hi _) fun ⟨level', pool'⟩ hred => ?_
    have hI' : I g pool' := hpr.keep hI (levelReduceQuantity_storage hred)
    obtain ⟨l₁, p₁, hred₁, hrep₁, -, -, -, hs₁, -⟩ := trade_spec hrep hs
      (min m.taker.remainingQuantity (m.pool.orderAt i).remainingQuantity)
    rw [hred₁] at hred
    cases hred
    dsimp only
    by_cases hfull : (m.pool.orderAt i).remainingQuantity -
        min m.taker.remainingQuantity (m.pool.orderAt i).remainingQuantity = 0
    · rw [if_pos hfull, if_pos hfull]
      refine .bind (I := fun g' r => I g' r.2.pool) ?_ fun ⟨level', m'⟩ g' _ hI' => .pure hI'
      exact dropMaker_follows hpr hrep₁.queue hs₁ hI' _
    · rw [if_neg hfull, if_neg hfull]
      exact .pure hI'

/-- The inner loop; every round finds its maker in use. -/
theorem drainLevel_follows (hpr : pr.Sound pf strict I) :
    ∀ (fuel : Nat) {level : PriceLevel} {m : Matching} {q : List Nat} {g : G},
      LevelRep pf m.pool level q → Store nz m.pool m.idIndex (q ++ others) → I g m.pool →
      Follows (fun g' r => I g' r.2.2.pool) g
        (pr.drainLevel pf policy symbol price now fuel level m)
        (drainLevel pf policy symbol price now fuel level m) := by
  intro fuel
  induction fuel with
  | zero => exact fun _ _ _ => .none
  | succ fuel ih =>
    intro level m q g hrep hs hI
    unfold Probe.drainLevel drainLevel
    have hhead := hrep.queue.head
    cases q with
    | nil =>
      rw [show level.head = none from hhead]
      exact .pure hI
    | cons i q =>
      rw [show level.head = some i from hhead]
      by_cases hrem : m.taker.remainingQuantity > 0
      · simp only [if_pos hrem]
        refine .bind (drainStep_follows hpr hrep hs hI) fun r g' hstep hI' => ?_
        obtain ⟨k, l₁, m₁, q', hstep₁, hrep', hs', -, -⟩ :=
          drainStep_progress policy symbol price now hrep hs
        rw [hstep₁] at hstep
        cases hstep
        cases k with
        | true => exact .pure hI'
        | false => exact ih hrep' hs' hI'
      · simp only [if_neg hrem]
        exact .pure hI

end drain

section matching

variable {S : Type} [LevelStore S] [LawfulLevelStore S] {G : Type} {pr : Probe G} {pf : Platform}
  {strict nz : Prop} {I : G → OrderPool → Prop} {policy : SelfTradePrevention}
  {symbol : SymbolId} {now : Nat → Timestamp} {taker : Order} {others : List Nat}

/-- The outer loop. -/
theorem matchLoop_follows (hpr : pr.Sound pf strict I) :
    ∀ (fuel : Nat) {qs : List (List Nat)} {s : S} {m : Matching} {rem : Int} {g : G},
      SideRep pf m.pool taker.side.opposite s qs →
      m.taker = { taker with remainingQuantity := rem } →
      Store nz m.pool m.idIndex (qs.flatten ++ others) → I g m.pool →
      Follows (fun g' r => I g' r.2.2.pool) g
        (pr.matchLoop pf policy symbol taker.side.opposite now fuel s m)
        (matchLoop pf policy symbol taker.side.opposite now fuel s m) := by
  intro fuel
  induction fuel with
  | zero => exact fun _ _ _ _ => .none
  | succ fuel ih =>
    intro qs s m rem g hrep htaker hs hI
    unfold Probe.matchLoop matchLoop
    by_cases hrem : m.taker.remainingQuantity > 0
    · simp only [if_pos hrem]
      refine .lift_bind rfl fun best hfront => ?_
      rw [LawfulLevelStore.front_eq hrep.wf] at hfront
      cases qs with
      | nil =>
        rw [List.forall₂_nil_right_iff.mp hrep.levels] at hfront
        cases hfront
        exact .pure hI
      | cons q qs =>
        obtain ⟨l, ls, s₁, m₁, l', q', hl, hview, hdrain, hput, hrep₁, -, hd⟩ :=
          hrep.drain_front symbol now htaker hs
            (fold_folds policy taker rem (q.map m.pool.orderAt))
        rw [hview] at hfront
        simp only [List.head?_cons, Option.map_some, Option.some.injEq] at hfront
        subst hfront
        by_cases hlimit : m.taker.type = .limit ∧ ¬ priceOk m.taker l.price = true
        · simp only [if_pos hlimit]
          exact .pure hI
        · simp only [if_neg hlimit]
          have hs' : Store nz m.pool m.idIndex (q ++ (qs.flatten ++ others)) := by
            simpa using hs
          refine .bind (drainLevel_follows hpr _ hl.rep hs' hI) fun r g' hdrain' hI' => ?_
          rw [hdrain] at hdrain'
          cases hdrain'
          refine .lift_bind rfl fun s' hput' => ?_
          rw [hput] at hput'
          cases hput'
          -- the loop goes on from a side that still stands for its queues
          have hs₁ : Store nz m₁.pool m₁.idIndex
              ((if q' = [] then qs else q' :: qs).flatten ++ others) := by
            rw [flatten_drained, List.append_assoc]
            exact hd.store
          split
          · exact .pure hI'
          · exact ih hrep₁ hd.taker_eq hs₁ hI'
    · simp only [if_neg hrem]
      exact .pure hI

end matching

/-! ## Section 4: Resting an order -/

/-- `upsert` runs its queue operation on one level: one that is there, or a new
    one at the price. -/
class LocalUpsert (S : Type) [LevelStore S] [LawfulLevelStore S] : Prop where
  upsert_congr : ∀ {side : Side} {s : S} {p : Int}
    {f f' : PriceLevel → Run (PriceLevel × OrderPool)}, LawfulLevelStore.WF side s →
    (∀ l, l ∈ LawfulLevelStore.view side s ∨ l = { price := p } → f l = f' l) →
    upsert side s p f = upsert side s p f'
  upsert_pool : ∀ {side : Side} {s s' : S} {p : Int}
    {f : PriceLevel → Run (PriceLevel × OrderPool)} {pool : OrderPool},
    upsert side s p f = some (s', pool) → ∃ l l', f l = some (l', pool)

instance : LocalUpsert MapLevels where
  upsert_congr {side s p f f'} _ hf := by
    simp only [upsert]
    cases hl : s.lookup p with
    | none => simp only [hf _ (Or.inr rfl)]
    | some l =>
      obtain ⟨e, he, rfl⟩ := Option.map_eq_some_iff.mp hl
      simp only [hf _ (Or.inl (List.mem_map_of_mem (List.mem_of_find?_eq_some he)))]
  upsert_pool {side s s' p f pool} h := by
    simp only [upsert] at h
    split at h
    all_goals
      obtain ⟨⟨l', pool'⟩, hf, h⟩ := Option.bind_eq_some_iff.mp h
      cases h
      exact ⟨_, l', hf⟩

instance : LocalUpsert VectorLevels where
  upsert_congr {side s p f f'} _ hf := by
    simp only [upsert]
    cases hl : s.levelAt side p with
    | none => simp only [hf _ (Or.inr rfl)]
    | some l =>
      have hmem : l ∈ s.items := List.mem_of_getElem? (Option.filter_eq_some_iff.mp hl).1
      simp only [hf _ (Or.inl hmem)]
  upsert_pool {side s s' p f pool} h := by
    simp only [upsert] at h
    split at h
    all_goals
      obtain ⟨⟨l', pool'⟩, hf, h⟩ := Option.bind_eq_some_iff.mp h
      cases h
      exact ⟨_, l', hf⟩

/-- The level of a tick once it is occupied. -/
theorem ArrayLevels.WF.occupied_level {side : Side} {a a' : ArrayLevels} {idx : Nat} {p : Int}
    {l : PriceLevel} (h : ArrayLevels.WF side a) (hocc : a.occupy side idx p = some a')
    (hl : a'.levels[idx]? = some l) : l ∈ ArrayLevels.view side a ∨ l = { price := p } := by
  obtain ⟨t, ht, hocc⟩ := Option.bind_eq_some_iff.mp hocc
  have hidx : idx < a.bitmap.numBits := by
    by_contra hc
    simp [Bitset.test, Bitset.wordOf, hc] at ht
  rw [h.bitmap.test_spec hidx, Option.some.injEq] at ht
  cases t with
  | true =>
    -- occupied already: the level is left as it is
    cases hocc
    rw [h.numBits] at hidx
    rw [ArrayLevels.levels_eq hidx] at hl
    cases hl
    exact Or.inl (List.mem_map_of_mem ((ArrayLevels.mem_occupied side h.bitmap).mpr ht))
  | false =>
    obtain ⟨l₀, hl₀, hocc⟩ := Option.bind_eq_some_iff.mp hocc
    obtain ⟨a₁, hassign, hocc⟩ := Option.bind_eq_some_iff.mp hocc
    obtain ⟨bitmap, -, hocc⟩ := Option.bind_eq_some_iff.mp hocc
    cases hocc
    rw [h.numBits] at hidx
    have hlevel := h.level idx hidx
    rw [ArrayLevels.levels_eq hidx, Option.some.injEq] at hl₀
    rw [ht, hl₀] at hlevel
    rw [ArrayLevels.assign, if_pos hidx] at hassign
    cases hassign
    rw [List.getElem?_set_self hidx, Option.some.injEq] at hl
    -- an unoccupied level carries nothing but a price
    rw [← hl, show l₀ = { price := l₀.price } from hlevel]
    exact Or.inr rfl

instance : LocalUpsert ArrayLevels where
  upsert_congr {side s p f f'} h hf := by
    refine Option.bind_congr fun idx _ => Option.bind_congr fun a hocc =>
      Option.bind_congr fun l hl => ?_
    rw [hf l (h.occupied_level hocc hl)]
  upsert_pool {side s s' p f pool} h := by
    obtain ⟨idx, -, h⟩ := Option.bind_eq_some_iff.mp h
    obtain ⟨a, -, h⟩ := Option.bind_eq_some_iff.mp h
    obtain ⟨l, -, h⟩ := Option.bind_eq_some_iff.mp h
    obtain ⟨⟨l', pool'⟩, hf, h⟩ := Option.bind_eq_some_iff.mp h
    obtain ⟨a', -, h⟩ := Option.bind_eq_some_iff.mp h
    cases h
    exact ⟨l, l', hf⟩

instance (k : Approach) : LocalUpsert k.Levels :=
  match k with
  | .map => inferInstanceAs (LocalUpsert MapLevels)
  | .vector => inferInstanceAs (LocalUpsert VectorLevels)
  | .array => inferInstanceAs (LocalUpsert ArrayLevels)

section resting

variable {S : Type} [LevelStore S] [LawfulLevelStore S] [LocalUpsert S] {G : Type} {pr : Probe G}
  {pf : Platform} {strict nz : Prop} {I : G → OrderPool → Prop} {b : OrderBook S}
  {qs : Side → List (List Nat)} {g : G}

theorem restOrder_follows (hpr : pr.Sound pf strict I) (h : BookRep pf nz b qs) (hI : I g b.pool)
    (order : Order) (hid : strict → order.id ≠ kInvalidOrderId) :
    Follows (fun g' b' => I g' b'.pool) g (pr.restOrder pf b order) (b.restOrder pf order) := by
  have hside := h.sides order.side
  have hstore := h.store_at order.side
  unfold Probe.restOrder OrderBook.restOrder
  refine .bind (hpr.acquire order hstore.intact hI) fun ⟨idx, pool⟩ g' hacq hI' => ?_
  obtain ⟨i, p₁, hacq₁, hi, -, -, hpart, -⟩ := OrderPool.acquire_spec pf hstore.part order
  rw [hacq₁] at hacq
  cases hacq
  -- the slots in use are those of before and the acquired one
  have hlive : ∀ j ∈ idx :: ((qs order.side).flatten ++ (qs order.side.opposite).flatten),
      pool.Live j := by
    intro j hj
    rw [← List.cons_append] at hpart
    exact (OrderPool.used_iff hpart).mp hj
  have hpush : ∀ l, l ∈ LawfulLevelStore.view order.side (b.levels order.side) ∨
      l = { price := order.price } →
      pr.levelPushBack pf l pool idx = levelPushBack pf l pool idx := by
    intro l hl
    refine levelPushBack_probed hpr (hlive idx (by simp)) fun j hj => hlive j ?_
    rcases hl with hl | rfl
    · obtain ⟨q, hq, hok⟩ := queue_of_level hside.levels hl
      rw [hok.rep.queue.tail] at hj
      have hmem := List.mem_flatten.mpr ⟨q, hq, List.mem_of_getLast? hj⟩
      simp [hmem]
    · cases hj
  refine .lift_bind (LocalUpsert.upsert_congr hside.wf hpush) fun ⟨levels, pool'⟩ hup => ?_
  obtain ⟨l, l', hl⟩ := LocalUpsert.upsert_pool hup
  refine .lift_bind (hpr.insert hid) fun ⟨_, ids⟩ _ => ?_
  exact .pure (hpr.keep hI' (levelPushBack_storage hl))

theorem conclude_follows (hpr : pr.Sound pf strict I) (h : BookRep pf nz b qs) (hI : I g b.pool)
    (stpKilled : Bool) (order : Order) (trades : List Trade)
    (hid : strict → order.id ≠ kInvalidOrderId) :
    Follows (fun g' out => I g' out.book.pool) g (pr.conclude pf b stpKilled order trades)
      (b.conclude pf stpKilled order trades) := by
  unfold Probe.conclude OrderBook.conclude
  by_cases hfull : order.remainingQuantity = 0
  · simp only [if_pos hfull]
    exact .pure hI
  simp only [if_neg hfull]
  by_cases hrests : ¬ stpKilled = true ∧ order.restsInBook = true
  · simp only [if_pos hrests]
    refine .bind (restOrder_follows hpr h hI order hid) fun b' g' _ hI' => ?_
    exact .pure hI'
  · simp only [if_neg hrests]
    exact .pure hI

end resting

/-! ## Section 5: The public operations -/

section operations

variable {S : Type} [LevelStore S] [LawfulLevelStore S] {G : Type} {pr : Probe G} {pf : Platform}
  {strict nz : Prop} {I : G → OrderPool → Prop} {b : OrderBook S} {qs : Side → List (List Nat)}
  {g : G}

theorem matchStep_follows (hpr : pr.Sound pf strict I) (h : BookRep pf nz b qs) (hI : I g b.pool)
    (order : Order) (now : Nat → Timestamp) :
    Follows (fun g' r => I g' r.2.2.2.pool) g (pr.matchStep pf b order now)
      (b.matchStep pf order now) := by
  unfold Probe.matchStep OrderBook.matchStep
  by_cases henter : order.type = .market ∨ order.timeInForce = .fok ∨ b.crosses order = true
  · rw [if_pos henter, if_pos henter]
    unfold Probe.matchAgainstBook OrderBook.matchAgainstBook
    refine .bind (matchLoop_follows hpr _ (h.sides _) rfl (h.store_at _) hI)
      fun ⟨killed, levels, m⟩ g' _ hI' => ?_
    exact .pure hI'
  · rw [if_neg henter, if_neg henter]
    exact .pure hI

theorem addOrder_follows [LocalUpsert S] (hpr : pr.Sound pf strict I) (h : BookRep pf nz b qs)
    (hI : I g b.pool) (order : Order) (now : Nat → Timestamp)
    (hid : strict → order.id ≠ kInvalidOrderId) :
    Follows (fun g' out => I g' out.book.pool) g (pr.addOrder pf b order now)
      (b.addOrder pf order now) := by
  unfold Probe.addOrder OrderBook.addOrder
  refine .lift_bind rfl fun reason _ => ?_
  cases reason with
  | some reason => exact .pure hI
  | none =>
    refine .lift_bind rfl fun killed _ => ?_
    cases killed with
    | true => exact .pure hI
    | false =>
      simp only [Bool.false_eq_true, if_false]
      unfold Probe.execute OrderBook.execute
      refine .bind (matchStep_follows hpr h hI order.opened now)
        fun ⟨stpKilled, left, trades, b'⟩ g' hmatch hI' => ?_
      -- matching leaves a valid book and changes no id
      obtain ⟨b₁, qs₁, hmatch₁, hrep₁, -⟩ := h.matchStep_spec order.opened now
      rw [hmatch₁] at hmatch
      cases hmatch
      exact conclude_follows hpr hrep₁ hI' _ _ _ hid

/-- The level of an indexed order is there, and the slots of its queue are in
    use. -/
theorem BookRep.level_of_index (h : BookRep pf nz b qs) {id : OrderId} {i : Nat}
    (hl : b.idIndex.lookup id = some i) :
    ∃ l q₁ q₂, l ∈ LawfulLevelStore.view (b.pool.orderAt i).side
        (b.levels (b.pool.orderAt i).side) ∧
      (b.pool.orderAt i).price = l.price ∧ l.empty = false ∧ Queue b.pool l (q₁ ++ i :: q₂) ∧
      ∀ j ∈ q₁ ++ i :: q₂, b.pool.Live j := by
  obtain ⟨-, hmem, -⟩ := (h.store.lookup id i).mp hl
  obtain ⟨q, hq, hiq⟩ := List.mem_flatten.mp (h.mem_side hmem)
  obtain ⟨l, hlevel, hok⟩ := levels_of_mem (h.sides _).levels hq
  obtain ⟨q₁, q₂, rfl⟩ := List.append_of_mem hiq
  refine ⟨l, q₁, q₂, hlevel, (hok.placed i hiq).price_eq, ?_, hok.rep.queue, ?_⟩
  · simpa using fun he => hok.ne (hok.rep.empty_iff.mp he)
  · intro j hj
    exact (h.store_at _).live (List.mem_append_left _ (List.mem_flatten.mpr ⟨_, hq, hj⟩))

/-- Cancelling an indexed order: its level is there, so the exit for a missing
    one is not taken. -/
theorem cancelAt_follows (hpr : pr.Sound pf strict I) (h : BookRep pf nz b qs) (hI : I g b.pool)
    {id : OrderId} {i : Nat} (hl : b.idIndex.lookup id = some i) :
    Follows (fun g' r => I g' r.2.pool) g (pr.cancelAt pf b id i) (b.cancelAt pf id i) := by
  obtain ⟨l, q₁, q₂, hlevel, hprice, hempty, hq, hlive⟩ := h.level_of_index hl
  have hi : b.pool.Live i := hlive i (by simp)
  unfold Probe.cancelAt OrderBook.cancelAt
  refine .lift_bind (hpr.get hi) fun node hnode => ?_
  rw [OrderPool.get_eq hi.1] at hnode
  cases hnode
  refine .lift_bind rfl fun found hfound => ?_
  have hfind := LawfulLevelStore.find_eq (h.sides (b.pool.orderAt i).side).wf hlevel
  rw [← hprice, hfound, Option.some.injEq] at hfind
  subst hfind
  refine .check (by rw [hprice]; exact hpr.found hempty) ?_
  refine .lift_bind (levelUnlink_probed hpr (hq.debited _) hlive) fun ⟨level', pool'⟩ hunlink => ?_
  have hsame := levelUnlink_storage hunlink
  refine .lift_bind rfl fun levels _ => ?_
  refine .bind (hpr.release (hsame.intact h.store.intact) (hsame.live hi) (hpr.keep hI hsame))
    fun pool'' g' _ hI' => ?_
  refine .lift_bind rfl fun ⟨_, ids⟩ _ => ?_
  exact .pure hI'

theorem cancelOrder_follows (hpr : pr.Sound pf strict I) (h : BookRep pf nz b qs) (hI : I g b.pool)
    (id : OrderId) :
    Follows (fun g' r => I g' r.2.pool) g (pr.cancelOrder pf b id) (b.cancelOrder pf id) := by
  unfold Probe.cancelOrder OrderBook.cancelOrder
  refine .lift_bind rfl fun found hfound => ?_
  rw [(h.find_eq id).1, Option.some.injEq] at hfound
  cases found with
  | none => exact .pure hI
  | some i => exact cancelAt_follows hpr h hI hfound

/-- Resizing an indexed order: the level dereferenced is its own. -/
theorem amendInPlace_probed (hpr : pr.Sound pf strict I) (h : BookRep pf nz b qs) {id : OrderId}
    {i : Nat} (hl : b.idIndex.lookup id = some i) (newQuantity : Int) :
    pr.amendInPlace pf b id i (b.pool.orderAt i) newQuantity =
      b.amendInPlace pf id i (b.pool.orderAt i) newQuantity := by
  obtain ⟨l, q₁, q₂, hlevel, hprice, hempty, -, hlive⟩ := h.level_of_index hl
  have hderef := LawfulLevelStore.deref_eq (h.sides (b.pool.orderAt i).side).wf hlevel
  have hfound := hpr.found hempty
  rw [← hprice] at hderef hfound
  unfold Probe.amendInPlace OrderBook.amendInPlace
  simp only [hderef, hfound, Option.bind_eq_bind, Option.bind_some,
    levelReduceQuantity_probed hpr (hlive i (by simp))]

omit [LawfulLevelStore S] in
theorem amendInPlace_storage {id : OrderId} {i : Nat} {snapshot : Order} {newQuantity : Int}
    {out : Outcome S} (h : b.amendInPlace pf id i snapshot newQuantity = some out) :
    SameStorage b.pool out.book.pool := by
  obtain ⟨level, -, h⟩ := Option.bind_eq_some_iff.mp h
  obtain ⟨⟨level', pool'⟩, hred, h⟩ := Option.bind_eq_some_iff.mp h
  obtain ⟨levels, -, h⟩ := Option.bind_eq_some_iff.mp h
  cases h
  exact levelReduceQuantity_storage hred

theorem amendOrder_follows [LocalUpsert S] (hpr : pr.Sound pf strict I) (h : BookRep pf nz b qs)
    (hI : I g b.pool) (id : OrderId) (newQuantity : Int) (newPrice : Option Int)
    (now : Nat → Timestamp) :
    Follows (fun g' out => I g' out.book.pool) g (pr.amendOrder pf b id newQuantity newPrice now)
      (b.amendOrder pf id newQuantity newPrice now) := by
  unfold Probe.amendOrder OrderBook.amendOrder
  refine .lift_bind rfl fun found hfound => ?_
  rw [(h.find_eq id).1, Option.some.injEq] at hfound
  cases found with
  | none => exact .pure hI
  | some i =>
    obtain ⟨hid, hmem, hoid⟩ := (h.store.lookup id i).mp hfound
    have hi : b.pool.Live i := h.store.live hmem
    dsimp only
    by_cases hq : newQuantity ≤ 0
    · rw [if_pos hq, if_pos hq]
      exact .pure hI
    rw [if_neg hq, if_neg hq]
    by_cases hr : (newPrice.any fun p => ¬ b.inRange p) = true
    · rw [if_pos hr, if_pos hr]
      exact .pure hI
    rw [if_neg hr, if_neg hr]
    refine .lift_bind (hpr.get hi) fun node hnode => ?_
    rw [OrderPool.get_eq hi.1] at hnode
    cases hnode
    dsimp only
    by_cases hkeep : (¬ (newPrice.any fun p => p ≠ (b.pool.orderAt i).price) = true) ∧
        ¬ newQuantity > (b.pool.orderAt i).remainingQuantity
    · rw [if_pos hkeep, if_pos hkeep]
      refine .lift (amendInPlace_probed hpr h hfound newQuantity) fun out hout => ?_
      exact hpr.keep hI (amendInPlace_storage hout)
    · rw [if_neg hkeep, if_neg hkeep]
      refine .bind (cancelOrder_follows hpr h hI id) fun ⟨_, b'⟩ g' hcancel hI' => ?_
      obtain ⟨b₁, qs₁, hcancel₁, hrep₁, -⟩ := h.cancelOrder_spec id
      rw [hcancel₁] at hcancel
      cases hcancel
      -- the replacement keeps the id, which was indexed
      refine addOrder_follows hpr hrep₁ hI' _ _ fun _ => ?_
      show (b.pool.orderAt i).id ≠ _
      rw [hoid]
      exact hid

omit [LawfulLevelStore S] in
theorem reset_follows (hpr : pr.Sound pf strict I) (hI : I g b.pool) :
    Follows (fun g' b' => I g' b'.pool) g (pr.resetBook b) b.reset := by
  unfold Probe.resetBook OrderBook.reset
  refine .lift_bind rfl fun bids _ => .lift_bind rfl fun asks _ => ?_
  refine .bind (h := fun pool => pure { b with
    bids := bids, asks := asks, pool := pool, idIndex := b.idIndex.clear }) (hpr.reset hI)
    fun pool g' _ hI' => ?_
  exact .pure hI'

/-- **Instrumented calls follow the plain ones**: from a valid book a sound
    probe refuses nothing, and its invariant is kept. -/
theorem OrderBook.Valid.call_follows [LocalUpsert S] (h : b.Valid pf nz)
    (hpr : pr.Sound pf strict I) (hI : I g b.pool) (c : Call) (now : Clock)
    (hc : strict → c.NonZero) :
    Follows (fun g' r => I g' r.2.pool) g (pr.call pf b (c, now)) (b.call pf (c, now)) := by
  obtain ⟨qs, h⟩ := h
  cases c with
  | add order =>
    refine .bind (addOrder_follows hpr h hI order now hc) fun out g' _ hI' => ?_
    exact .pure hI'
  | cancel id =>
    refine .bind (cancelOrder_follows hpr h hI id) fun ⟨_, b'⟩ g' _ hI' => ?_
    exact .pure hI'
  | amend id newQuantity newPrice =>
    refine .bind (amendOrder_follows hpr h hI id newQuantity newPrice now) fun out g' _ hI' => ?_
    exact .pure hI'
  | reset =>
    refine .bind (reset_follows hpr hI) fun b' g' _ hI' => ?_
    exact .pure hI'

end operations

end LightningLob
