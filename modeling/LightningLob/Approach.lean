import LightningLob.ArrayLadder
import LightningLob.BookOperations
import LightningLob.Lib.Runs
import LightningLob.LinearLadders

/-! # The three books and their runs

    `Approach` names the three implementations.  A run of a book is a sequence
    of `add_order`, `cancel_order`, `amend_order` and `reset` calls from its
    constructor; every such call returns, and does to the book what the
    reference book says. -/

namespace LightningLob

/-! ## Section 1: Calls -/

/-- A call that may change a book. -/
inductive Call where
  | add (order : Order)
  | cancel (id : OrderId)
  | amend (id : OrderId) (newQuantity : Int) (newPrice : Option Int)
  | reset
  deriving DecidableEq, Repr

/-- What a call returns. -/
inductive Answer where
  | report (report : ExecutionReport)
  | flag (cancelled : Bool)
  | done
  deriving DecidableEq, Repr

/-- What the caller sees of a call: its result and the trades it emitted. -/
structure Reply where
  answer : Answer
  trades : List Trade := []
  deriving DecidableEq, Repr

/-- The clock readings of one call. -/
abbrev Clock : Type := Nat → Timestamp

/-- `add_order` was given a real order id. -/
def Call.NonZero : Call → Prop
  | .add order => order.id ≠ kInvalidOrderId
  | _ => True

instance (c : Call) : Decidable c.NonZero := by
  unfold Call.NonZero
  cases c <;> exact inferInstance

/-- One call on a book. -/
def OrderBook.call {S : Type} [LevelStore S] (pf : Platform) (b : OrderBook S) :
    Call × Clock → Run (Reply × OrderBook S)
  | (.add order, now) => do
      let out ← b.addOrder pf order now
      pure (⟨.report out.report, out.trades⟩, out.book)
  | (.cancel id, _) => do
      let (cancelled, b) ← b.cancelOrder pf id
      pure (⟨.flag cancelled, []⟩, b)
  | (.amend id newQuantity newPrice, now) => do
      let out ← b.amendOrder pf id newQuantity newPrice now
      pure (⟨.report out.report, out.trades⟩, out.book)
  | (.reset, _) => do
      let b ← b.reset
      pure (⟨.done, []⟩, b)

/-- One call on the reference book. -/
def RefBook.call (pf : Platform) (r : RefBook) : Call × Clock → Reply × RefBook
  | (.add order, now) =>
      let out := r.addOrder pf order now
      (⟨.report out.report, out.trades⟩, out.book)
  | (.cancel id, _) =>
      let (cancelled, r) := r.cancelOrder id
      (⟨.flag cancelled, []⟩, r)
  | (.amend id newQuantity newPrice, now) =>
      let out := r.amendOrder pf id newQuantity newPrice now
      (⟨.report out.report, out.trades⟩, out.book)
  | (.reset, _) => (⟨.done, []⟩, r.reset)

section calls

variable {S : Type} [LevelStore S] [LawfulLevelStore S] {pf : Platform} {nz : Prop}
  {b : OrderBook S}

/-- The call adds an order without a real id, and it joins the book. -/
def RefBook.RestsUnnamed (r : RefBook) : Call → Prop
  | .add order => order.id = kInvalidOrderId ∧ r.rejectReason order = none ∧ r.Joins order.opened
  | _ => False

theorem Call.NonZero.not_restsUnnamed {c : Call} (h : c.NonZero) (r : RefBook) :
    ¬ r.RestsUnnamed c := by
  cases c with
  | add order => exact fun hc => h hc.1
  | cancel | amend | reset => exact id

/-- **Step refinement**: every call on a valid book returns, answers like the
    reference and leaves a valid book that stands for the reference's; one
    whose index counts its orders, unless an order without an id joins. -/
theorem OrderBook.Valid.call_counts (h : b.Valid pf nz) (c : Call) (now : Clock)
    (hc : nz → ¬ b.reference.RestsUnnamed c) :
    ∃ b', b.call pf (c, now) = some ((b.reference.call pf (c, now)).1, b') ∧ b'.Valid pf nz ∧
      b'.reference = (b.reference.call pf (c, now)).2 := by
  obtain ⟨qs, h⟩ := h
  cases c with
  | add order =>
    obtain ⟨out, hrun, href⟩ := h.addOrder_spec order now
      fun hz hok hjoins hid => hc hz ⟨hid, hok, hjoins⟩
    refine ⟨out.book, ?_, href.valid, href.book⟩
    simp [OrderBook.call, RefBook.call, hrun, href.report, href.trades]
  | cancel id =>
    obtain ⟨b', qs', hrun, hrep, href⟩ := h.cancelOrder_spec id
    exact ⟨b', by simp [OrderBook.call, RefBook.call, hrun], ⟨qs', hrep⟩, href⟩
  | amend id newQuantity newPrice =>
    obtain ⟨out, hrun, href⟩ := h.amendOrder_spec id newQuantity newPrice now
    refine ⟨out.book, ?_, href.valid, href.book⟩
    simp [OrderBook.call, RefBook.call, hrun, href.report, href.trades]
  | reset =>
    obtain ⟨b', hrun, hrep, href⟩ := h.reset_spec nz
    exact ⟨b', by simp [OrderBook.call, RefBook.call, hrun], ⟨_, hrep⟩, href⟩

theorem OrderBook.Valid.call_spec (h : b.Valid pf nz) (c : Call) (now : Clock)
    (hc : nz → c.NonZero) :
    ∃ b', b.call pf (c, now) = some ((b.reference.call pf (c, now)).1, b') ∧ b'.Valid pf nz ∧
      b'.reference = (b.reference.call pf (c, now)).2 :=
  h.call_counts c now fun hz => (hc hz).not_restsUnnamed b.reference

/-- What a call that returned did. -/
theorem OrderBook.Valid.call_eq (h : b.Valid pf nz) {c : Call} {now : Clock}
    (hc : nz → c.NonZero) {reply : Reply} {b' : OrderBook S}
    (hrun : b.call pf (c, now) = some (reply, b')) :
    b'.Valid pf nz ∧ reply = (b.reference.call pf (c, now)).1 ∧
      b'.reference = (b.reference.call pf (c, now)).2 := by
  obtain ⟨b₁, hrun₁, hvalid, href⟩ := h.call_spec c now hc
  rw [hrun] at hrun₁
  obtain ⟨rfl, rfl⟩ := Prod.mk.inj (Option.some.inj hrun₁)
  exact ⟨hvalid, rfl, href⟩

/-- What holds of the orders of every valid book. -/
structure RefBook.Sound (nz : Prop) (r : RefBook) : Prop where
  priority : ∀ side, Priority side (r.orders side)
  placed : ∀ side, ∀ o ∈ r.orders side, Placed side o.price o
  range : ∀ o ∈ r.all, r.inRange o.price = true
  ids : nz → (r.all.map Order.id).Nodup ∧ ∀ o ∈ r.all, o.id ≠ kInvalidOrderId

theorem BookRep.sound {qs : Side → List (List Nat)} (h : BookRep pf nz b qs) :
    b.reference.Sound nz where
  priority := fun side => by
    rw [OrderBook.reference_orders, h.resting_eq]
    exact (h.sides side).priority
  placed := fun side o ho => by
    rw [OrderBook.reference_orders, h.resting_eq] at ho
    obtain ⟨i, hi, rfl⟩ := List.mem_map.mp ho
    obtain ⟨l, -, hp⟩ := levels_placed (h.sides side).levels hi
    rw [hp.price_eq]
    exact hp
  range := fun o ho => by
    obtain ⟨side, ho⟩ := RefBook.mem_all.mp ho
    rw [OrderBook.reference_orders, h.resting_eq] at ho
    obtain ⟨i, hi, rfl⟩ := List.mem_map.mp ho
    obtain ⟨l, hl, hp⟩ := levels_placed (h.sides side).levels hi
    -- a level exists only at prices the container accepts
    have hr := LawfulLevelStore.range_view (h.sides side).wf hl
    rw [h.range_at, ← hp.price_eq] at hr
    exact hr
  ids := fun hz => by
    obtain ⟨hne, -⟩ := h.store.counted hz
    rw [h.all_eq, List.map_map]
    refine ⟨h.store.nodup.map_on ?_, ?_⟩
    · intro i hi j hj hij
      exact h.store.id_unique hj hi (hne j hj) hij
    · intro o ho
      obtain ⟨i, hi, rfl⟩ := List.mem_map.mp ho
      exact hne i hi

theorem OrderBook.Valid.sound (h : b.Valid pf nz) : b.reference.Sound nz := by
  obtain ⟨qs, h⟩ := h
  exact h.sound

end calls

/-! ## Section 2: The three approaches -/

/-- `OrderBookMap`, `OrderBookVector` and `OrderBookArray`. -/
inductive Approach where
  | map
  | vector
  | array
  deriving DecidableEq, Repr

namespace Approach

/-- The level container of an approach. -/
def Levels : Approach → Type
  | .map => MapLevels
  | .vector => VectorLevels
  | .array => ArrayLevels

instance (k : Approach) : LevelStore k.Levels :=
  match k with
  | .map => inferInstanceAs (LevelStore MapLevels)
  | .vector => inferInstanceAs (LevelStore VectorLevels)
  | .array => inferInstanceAs (LevelStore ArrayLevels)

instance (k : Approach) : LawfulLevelStore k.Levels :=
  match k with
  | .map => inferInstanceAs (LawfulLevelStore MapLevels)
  | .vector => inferInstanceAs (LawfulLevelStore VectorLevels)
  | .array => inferInstanceAs (LawfulLevelStore ArrayLevels)

instance (k : Approach) : DecidableEq k.Levels :=
  match k with
  | .map => inferInstanceAs (DecidableEq MapLevels)
  | .vector => inferInstanceAs (DecidableEq VectorLevels)
  | .array => inferInstanceAs (DecidableEq ArrayLevels)

/-- A book of an approach. -/
abbrev Book (k : Approach) : Type := OrderBook k.Levels

/-- The constructors. -/
def create (pf : Platform) (k : Approach) (symbol : SymbolId) (minPrice maxPrice : Int)
    (orderCapacityHint : Nat) (stpPolicy : SelfTradePrevention) : Run k.Book :=
  match k with
  | .map => OrderBookMap.create pf symbol minPrice maxPrice orderCapacityHint stpPolicy
  | .vector => OrderBookVector.create pf symbol minPrice maxPrice orderCapacityHint stpPolicy
  | .array => OrderBookArray.create pf symbol minPrice maxPrice orderCapacityHint stpPolicy

/-- A whole session: build a book and make the calls one after another. -/
def session (pf : Platform) (k : Approach) (symbol : SymbolId) (minPrice maxPrice : Int)
    (orderCapacityHint : Nat) (stpPolicy : SelfTradePrevention) (calls : List (Call × Clock)) :
    Run (List Reply × k.Book) := do
  let b ← k.create pf symbol minPrice maxPrice orderCapacityHint stpPolicy
  Runs.exec (OrderBook.call pf) b calls

/-- The book is what a constructor call returned. -/
def Built (pf : Platform) (k : Approach) (b : k.Book) : Prop :=
  ∃ symbol minPrice maxPrice orderCapacityHint stpPolicy,
    k.create pf symbol minPrice maxPrice orderCapacityHint stpPolicy = some b

/-- The book is reached from a constructor by calls satisfying `ok`.  Pool
    handles have no bound here, so what holds of reachable books is said of the
    source while fewer than `2 ^ 32 - 1` orders rest at once. -/
def Reachable (pf : Platform) (k : Approach) (ok : Call → Prop) (b : k.Book) : Prop :=
  Runs.Reachable (OrderBook.call pf) (k.Built pf) (fun a => ok a.1) b

/-! ## Section 3: Reachable books are valid -/

section validity

variable {pf : Platform} {k : Approach} {symbol : SymbolId} {minPrice maxPrice : Int} {hint : Nat}
  {stpPolicy : SelfTradePrevention} {b : k.Book}

/-- A new book over any container. -/
theorem new_spec {S : Type} [LevelStore S] [LawfulLevelStore S] (nz : Prop) {ids : IdIndexMap}
    (hids : IdIndexMap.create hint = some ids) {bids asks : S}
    (hbids : LawfulLevelStore.WF .buy bids ∧ LawfulLevelStore.view .buy bids = [])
    (hasks : LawfulLevelStore.WF .sell asks ∧ LawfulLevelStore.view .sell asks = [])
    (hrange : LevelStore.inRange asks = LevelStore.inRange bids) :
    OrderBook.Valid pf nz ⟨symbol, bids, asks, OrderPool.create pf hint, ids, stpPolicy⟩ ∧
      OrderBook.reference ⟨symbol, bids, asks, OrderPool.create pf hint, ids, stpPolicy⟩ =
        ⟨symbol, stpPolicy, LevelStore.inRange bids, fun _ => []⟩ := by
  have hrep : BookRep pf nz ⟨symbol, bids, asks, OrderPool.create pf hint, ids, stpPolicy⟩
      fun _ => [] := by
    refine BookRep.of_empty ⟨rfl, rfl⟩ (IdIndexMap.create_spec hids) ?_ ?_ hrange
    · rintro (_ | _)
      · exact hbids.1
      · exact hasks.1
    · rintro (_ | _)
      · exact hbids.2
      · exact hasks.2
  refine ⟨⟨_, hrep⟩, ?_⟩
  have horders : OrderBook.resting
      ⟨symbol, bids, asks, OrderPool.create pf hint, ids, stpPolicy⟩ = fun _ => [] := by
    funext side
    rw [hrep.resting_eq]
    rfl
  rw [OrderBook.reference, horders]
  rfl

theorem validateAndComputeRange_eq_some {range : Nat}
    (h : validateAndComputeRange minPrice maxPrice = some range) :
    0 < minPrice ∧ minPrice ≤ maxPrice ∧ range = (maxPrice - minPrice).toNat + 1 := by
  unfold validateAndComputeRange at h
  split at h
  · cases h
  · split at h
    · cases h
    · exact ⟨by omega, by omega, (Option.some.inj h).symm⟩

/-- The prices a book of the approach can hold. -/
def accepts (k : Approach) (minPrice maxPrice price : Int) : Bool :=
  match k with
  | .map | .vector => true
  | .array => minPrice ≤ price ∧ price ≤ maxPrice

/-- What a constructor leaves: empty sides over empty storage. -/
theorem create_spec (nz : Prop)
    (h : k.create pf symbol minPrice maxPrice hint stpPolicy = some b) :
    b.Valid pf nz ∧
      b.reference = ⟨symbol, stpPolicy, k.accepts minPrice maxPrice, fun _ => []⟩ := by
  cases k with
  | map =>
    obtain ⟨ids, hids, hb⟩ := Option.bind_eq_some_iff.mp h
    cases hb
    exact new_spec (S := MapLevels) nz hids
      ⟨⟨.nil, rfl⟩, rfl⟩ ⟨⟨.nil, rfl⟩, rfl⟩ rfl
  | vector =>
    obtain ⟨ids, hids, hb⟩ := Option.bind_eq_some_iff.mp h
    cases hb
    exact new_spec (S := VectorLevels) nz hids ⟨.nil, rfl⟩ ⟨.nil, rfl⟩ rfl
  | array =>
    obtain ⟨range, hr, h⟩ := Option.bind_eq_some_iff.mp h
    obtain ⟨ids, hids, hb⟩ := Option.bind_eq_some_iff.mp h
    cases hb
    obtain ⟨hr, hfits⟩ := Option.filter_eq_some_iff.mp hr
    -- the range check gives the band the ladder needs
    obtain ⟨hpos, hband, rfl⟩ := validateAndComputeRange_eq_some hr
    have hfits : (maxPrice - minPrice).toNat + 1 ≤ kMaxLevels := by simpa using hfits
    exact new_spec (S := ArrayLevels) nz hids (ArrayLevels.create_spec .buy hpos hband hfits)
      (ArrayLevels.create_spec .sell hpos hband hfits) rfl

/-- Every book of a run is valid; with real ids only, its index counts the
    resting orders. -/
theorem Reachable.valid {ok : Call → Prop} {nz : Prop} (hok : ∀ c, ok c → nz → c.NonZero)
    (h : k.Reachable pf ok b) : b.Valid pf nz := by
  refine Runs.Reachable.invariant ?_ ?_ h
  · rintro b ⟨_, _, _, _, _, hb⟩
    exact (create_spec nz hb).1
  · rintro b ⟨c, now⟩ reply b' hvalid hc hrun
    exact (hvalid.call_eq (hok c hc) hrun).1

theorem session_eq_some {calls : List (Call × Clock)} {x : List Reply × k.Book} :
    k.session pf symbol minPrice maxPrice hint stpPolicy calls = some x ↔
      ∃ b₀, k.create pf symbol minPrice maxPrice hint stpPolicy = some b₀ ∧
        Runs.exec (OrderBook.call pf) b₀ calls = some x :=
  Option.bind_eq_some_iff

/-- The last book of a session is reachable. -/
theorem reachable_of_session {ok : Call → Prop} {calls : List (Call × Clock)}
    {replies : List Reply} (hok : ∀ a ∈ calls, ok a.1)
    (h : k.session pf symbol minPrice maxPrice hint stpPolicy calls = some (replies, b)) :
    k.Reachable pf ok b := by
  obtain ⟨b₀, hb₀, hrun⟩ := session_eq_some.mp h
  exact Runs.Reachable.of_exec calls (.init ⟨_, _, _, _, _, hb₀⟩) hok hrun

/-- A check on the book a session ends with. -/
theorem session_ends {P : k.Book → Prop} [DecidablePred P] {calls : List (Call × Clock)}
    (h : ((k.session pf symbol minPrice maxPrice hint stpPolicy calls).any
      fun x => P x.2) = true) :
    ∃ replies b, k.session pf symbol minPrice maxPrice hint stpPolicy calls = some (replies, b) ∧
      P b := by
  cases hs : k.session pf symbol minPrice maxPrice hint stpPolicy calls with
  | none => rw [hs] at h; cases h
  | some x =>
    rw [hs] at h
    exact ⟨x.1, x.2, rfl, by simpa using h⟩

end validity

end Approach

end LightningLob
