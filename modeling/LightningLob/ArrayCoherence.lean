import LightningLob.CallEffects
import Mathlib.Order.Bounds.Defs

/-! # The caches of the price ladder

    `OrderBookArray` caches what its levels say twice: an occupancy bit per
    tick and the index of the best occupied tick.  Over every run, whatever the
    calls, the caches agree with the levels and no index leaves the ladder. -/

namespace LightningLob

/-- The ticks whose occupancy bit is set. -/
def ArrayLevels.setBits (a : ArrayLevels) : Set Nat := { i | a.bitmap.test i = some true }

/-- Levels, bits and best index of one side of a ladder over the given band
    agree. -/
structure LadderCoherent (side : Side) (minPrice maxPrice : Int) (a : ArrayLevels) : Prop where
  band : a.minPrice = minPrice ∧ a.maxPrice = maxPrice
  /-- One level per tick of the band. -/
  length : (a.levels.length : Int) = maxPrice - minPrice + 1
  /-- A bit is set exactly when its level has an order. -/
  bit : ∀ i level, a.levels[i]? = some level →
    a.bitmap.test i = some (decide (0 < level.orderCount))
  bit_lt : ∀ i ∈ a.setBits, i < a.levels.length
  best : ∀ i, a.bestIdx = some i ↔ match side with
    | .buy => IsGreatest a.setBits i
    | .sell => IsLeast a.setBits i
  best_none : a.bestIdx = none ↔ a.setBits = ∅
  price : ∀ i level, a.levels[i]? = some level → a.bitmap.test i = some true →
    level.price = minPrice + i
  unoccupied : ∀ i level, a.levels[i]? = some level → a.bitmap.test i = some false →
    level.head = none ∧ level.tail = none ∧ level.orderCount = 0

namespace ArrayLevels

section coherence

variable {side : Side} {a : ArrayLevels}

theorem WF.test_eq (h : WF side a) {i : Nat} (hi : i < a.levels.length) :
    a.bitmap.test i = some (a.bitmap.has i) :=
  h.bitmap.test_spec (by rw [h.numBits]; exact hi)

theorem WF.mem_setBits (h : WF side a) {i : Nat} :
    i ∈ a.setBits ↔ i ∈ occupied side a.bitmap := by
  rw [mem_occupied side h.bitmap]
  show a.bitmap.test i = some true ↔ _
  constructor
  · intro ht
    by_cases hi : i < a.bitmap.numBits
    · rw [h.bitmap.test_spec hi] at ht
      exact Option.some.inj ht
    · simp [Bitset.test, Bitset.wordOf, hi] at ht
  · intro hi
    rw [h.bitmap.test_spec (h.bitmap.lt_of_has hi), hi]

/-- The first occupied index comes before all others. -/
theorem head_before (side : Side) (bitmap : Bitset) {i : Nat}
    (hi : (occupied side bitmap).head? = some i) {j : Nat} (hj : j ∈ occupied side bitmap) :
    j = i ∨ Before side i j := by
  have hpair := occupied_pairwise side bitmap
  cases hocc : occupied side bitmap with
  | nil => rw [hocc] at hj; cases hj
  | cons x xs =>
    rw [hocc] at hi hj hpair
    cases hi
    rcases List.mem_cons.mp hj with rfl | hj
    · exact Or.inl rfl
    · exact Or.inr ((List.pairwise_cons.mp hpair).1 j hj)

/-- The cached best index is the best set bit. -/
theorem WF.best_iff (h : WF side a) (i : Nat) :
    a.bestIdx = some i ↔ i ∈ a.setBits ∧ ∀ j ∈ a.setBits, j = i ∨ Before side i j := by
  rw [h.best]
  constructor
  · intro hi
    exact ⟨h.mem_setBits.mpr (List.mem_of_head? hi),
      fun j hj => head_before side a.bitmap hi (h.mem_setBits.mp hj)⟩
  -- `Before` is strict, so two best bits are the same bit
  · rintro ⟨hi, hall⟩
    cases hocc : (occupied side a.bitmap).head? with
    | none =>
      rw [h.mem_setBits, List.head?_eq_none_iff.mp hocc] at hi
      cases hi
    | some j =>
      rcases hall j (h.mem_setBits.mpr (List.mem_of_head? hocc)) with rfl | hij
      · rfl
      · rcases head_before side a.bitmap hocc (h.mem_setBits.mp hi) with rfl | hji
        · rfl
        · exact (before_asymm hij hji).elim

/-- The side's own invariant, read through the operations of the code. -/
theorem WF.coherent (h : WF side a) : LadderCoherent side a.minPrice a.maxPrice a where
  band := ⟨rfl, rfl⟩
  length := by
    have h₁ := h.length
    have h₂ := h.band
    omega
  bit := by
    intro i level hi
    have hlt := (List.getElem?_eq_some_iff.mp hi).1
    have hlevel := h.level i hlt
    -- a level behind a clear bit is a fresh one: its count is zero
    rw [show a.levelAt i = level by rw [levelAt, hi]; rfl] at hlevel
    rw [h.test_eq hlt]
    cases hb : a.bitmap.has i with
    | true =>
      rw [hb] at hlevel
      simp [Nat.pos_of_ne_zero hlevel.1]
    | false =>
      rw [hb] at hlevel
      rw [hlevel]
      simp
  bit_lt := fun i hi => h.lt_of_mem (h.mem_setBits.mp hi)
  best := by
    intro i
    rw [h.best_iff]
    cases side with
    | buy =>
      refine and_congr_right fun _ => forall₂_congr fun j _ => ?_
      simp only [Before]
      omega
    | sell =>
      refine and_congr_right fun _ => forall₂_congr fun j _ => ?_
      simp only [Before]
      omega
  best_none := by
    rw [h.best, List.head?_eq_none_iff, List.eq_nil_iff_forall_not_mem,
      Set.eq_empty_iff_forall_notMem]
    exact forall_congr' fun i => not_congr h.mem_setBits.symm
  price := by
    intro i level hi ht
    have hmem := h.mem_setBits.mp (show i ∈ a.setBits from ht)
    have hprice := (h.level_of_mem hmem).2
    rwa [show a.levelAt i = level by rw [levelAt, hi]; rfl] at hprice
  unoccupied := by
    intro i level hi ht
    have hlt := (List.getElem?_eq_some_iff.mp hi).1
    have hlevel := h.level i hlt
    rw [h.test_eq hlt, Option.some.injEq] at ht
    rw [show a.levelAt i = level by rw [levelAt, hi]; rfl, ht] at hlevel
    rw [hlevel]
    exact ⟨rfl, rfl, rfl⟩

/-- The prices a ladder takes fix its band. -/
theorem WF.band_eq (h : WF side a) {minPrice maxPrice : Int} (hband : minPrice ≤ maxPrice)
    (hr : LevelStore.inRange a = Approach.array.accepts minPrice maxPrice) :
    a.minPrice = minPrice ∧ a.maxPrice = maxPrice := by
  have hiff : ∀ p, (a.minPrice ≤ p ∧ p ≤ a.maxPrice) ↔ (minPrice ≤ p ∧ p ≤ maxPrice) := by
    intro p
    have hp := congrFun hr p
    simp only [LevelStore.inRange, Approach.accepts, decide_eq_decide] at hp
    exact hp
  -- the ends of each band lie in the other
  have h₁ := (hiff a.minPrice).mp ⟨le_refl _, h.band⟩
  have h₂ := (hiff a.maxPrice).mp ⟨h.band, le_refl _⟩
  have h₃ := (hiff minPrice).mpr ⟨le_refl _, hband⟩
  have h₄ := (hiff maxPrice).mpr ⟨hband, le_refl _⟩
  omega

end coherence

end ArrayLevels

/-- **Coherent ladders**: from every constructor of `OrderBookArray` that
    returns, every sequence of calls returns and so does the walk of every depth
    snapshot after it, so no index touched is outside the ladder; and the caches
    of both sides are left coherent.  This is said of the source while fewer
    than `2 ^ 32 - 1` orders rest. -/
theorem array_ladders_coherent (pf : Platform) (symbol : SymbolId) (minPrice maxPrice : Int)
    (hint : Nat) (stpPolicy : SelfTradePrevention) (b₀ : Approach.array.Book)
    (hb₀ : Approach.array.create pf symbol minPrice maxPrice hint stpPolicy = some b₀)
    (calls : List (Call × Clock)) :
    ∃ replies b, Runs.exec (OrderBook.call pf) b₀ calls = some (replies, b) ∧
      LadderCoherent .buy minPrice maxPrice b.bids ∧
      LadderCoherent .sell minPrice maxPrice b.asks ∧
      ∀ n, (b.bidDepthUnreserved n).isSome ∧ (b.askDepthUnreserved n).isSome := by
  obtain ⟨hvalid₀, href₀⟩ := Approach.create_spec False hb₀
  have hband : minPrice ≤ maxPrice := by
    obtain ⟨range, hrange, -⟩ := Option.bind_eq_some_iff.mp hb₀
    have hcheck := (Option.filter_eq_some_iff.mp hrange).1
    exact (Approach.validateAndComputeRange_eq_some hcheck).2.1
  -- the run keeps the books valid and their band
  obtain ⟨replies, b, hrun, ⟨qs, hrep⟩, hrange⟩ := Runs.exec_history
    (P := fun _ (b : Approach.array.Book) => b.Valid pf False ∧
      b.reference.inRange = Approach.array.accepts minPrice maxPrice)
    (fun _ b a ⟨hvalid, hr⟩ (_ : True) => by
      obtain ⟨b', hrun, hvalid', href⟩ := hvalid.call_spec a.1 a.2 False.elim
      refine ⟨_, b', hrun, hvalid', ?_⟩
      rw [href, (RefBook.call_effect pf hvalid.sound a.1 a.2).setup.range_eq, hr])
    calls [] b₀ ⟨hvalid₀, by rw [href₀]⟩ fun _ _ => trivial
  have hcoherent : ∀ side, LadderCoherent side minPrice maxPrice (b.levels side) := by
    intro side
    have hwf : ArrayLevels.WF side (b.levels side) := (hrep.sides side).wf
    have hr : LevelStore.inRange (b.levels side) = Approach.array.accepts minPrice maxPrice :=
      (hrep.range_at side).trans hrange
    obtain ⟨hmin, hmax⟩ := hwf.band_eq hband hr
    have hc := hwf.coherent
    rw [hmin, hmax] at hc
    exact hc
  refine ⟨replies, b, hrun, hcoherent .buy, hcoherent .sell, fun n => ?_⟩
  have hdepth : ∀ side, (LevelStore.depth side (b.levels side) n).isSome := by
    intro side
    rw [LawfulLevelStore.depth_eq (hrep.sides side).wf]
    rfl
  exact ⟨hdepth .buy, hdepth .sell⟩

/-- The best ask is taken and the cache moves over the gap to the next. -/
theorem array_ladders_coherent_gap :
    ∃ (b : Approach.array.Book), Approach.array.Reachable .int64 (fun _ => True) b ∧
      b.asks.bestIdx = some 19 ∧ LadderCoherent .buy 90 110 b.bids ∧
      LadderCoherent .sell 90 110 b.asks := by
  let calls : List (Call × Clock) :=
    [(.add ⟨1, 92, 5, 0, 0, 1, 7, .sell, .limit, .gtc⟩, fun _ => 0),
     (.add ⟨2, 109, 5, 0, 0, 1, 7, .sell, .limit, .gtc⟩, fun _ => 0),
     (.add ⟨3, 92, 5, 0, 0, 1, 8, .buy, .limit, .gtc⟩, fun _ => 0)]
  obtain ⟨replies, b, hrun, hbest⟩ := Approach.session_ends
    (P := fun b : Approach.array.Book => b.asks.bestIdx = some 19)
    (show ((Approach.array.session .int64 1 90 110 4 .none calls).any _) = true by decide +kernel)
  refine ⟨b, Approach.reachable_of_session (fun _ _ => trivial) hrun, hbest, ?_⟩
  obtain ⟨b₀, hb₀, hexec⟩ := Approach.session_eq_some.mp hrun
  obtain ⟨replies', b', hexec', hbids, hasks, -⟩ :=
    array_ladders_coherent .int64 1 90 110 4 .none b₀ hb₀ calls
  rw [hexec] at hexec'
  obtain ⟨-, rfl⟩ := Prod.mk.inj (Option.some.inj hexec')
  exact ⟨hbids, hasks⟩

end LightningLob
