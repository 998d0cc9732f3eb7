import LightningLob.Relabel

/-! # Three implementations, one behaviour

    The three books differ in their containers, in the clock readings they
    stamp, and in whether they check a price band.  Erasing timestamps and
    fixing the band maps the reference book of each to one and the same
    specification, which decides everything a caller can observe. -/

namespace LightningLob

/-! ## Section 1: Erasing timestamps -/

def Order.untimed (o : Order) : Order := { o with timestamp := 0 }

def Trade.untimed (t : Trade) : Trade := { t with timestamp := 0 }

def Reply.untimed (r : Reply) : Reply := { r with trades := r.trades.map Trade.untimed }

def Call.untimed : Call → Call
  | .add order => .add order.untimed
  | c => c

/-- Erasing timestamps is a rewriting that matching cannot see. -/
theorem Relabel.retime_call (c : Call) : (Relabel.retime fun _ => 0).call c = c.untimed := by
  cases c with
  | add order =>
    show Call.add ((Relabel.retime fun _ => 0).incoming order) = .add order.untimed
    unfold Relabel.incoming
    rw [show (Relabel.retime fun _ => 0).price order.price = order.price from rfl, ite_self]
    rfl
  | amend id newQuantity newPrice =>
    show Call.amend id newQuantity (newPrice.map fun p => p) = .amend id newQuantity newPrice
    rw [Option.map_id']
  | cancel | reset => rfl

/-! ## Section 2: The specification the three books share -/

/-- The reference book without timestamps, over the given price band. -/
def RefBook.erase (band : Int → Bool) (r : RefBook) : RefBook where
  symbol := r.symbol
  policy := r.policy
  inRange := band
  orders := fun side => (r.orders side).map Order.untimed

/-- The book takes every price of the band and holds no other. -/
structure RefBook.Fits (band : Int → Bool) (r : RefBook) : Prop where
  takes : ∀ p, band p = true → r.inRange p = true
  holds : ∀ o ∈ r.all, band o.price = true

namespace RefBook

section erasure

variable {band : Int → Bool} {r : RefBook} {order : Order} {now : Clock}

theorem Fits.remove (h : r.Fits band) (id : OrderId) : (r.remove id).Fits band :=
  ⟨h.takes, fun o ho => h.holds o (mem_remove.mp ho).1⟩

/-- The replacement of a resting order is in the band. -/
theorem Fits.replacement (h : r.Fits band) {id : OrderId} {o : Order} (hfind : r.find id = some o)
    {newPrice : Option Int} (hin : ∀ p, newPrice = some p → band p = true) (newQuantity : Int)
    (timestamp : Timestamp) :
    band (OrderBook.replacement o newQuantity newPrice timestamp).price = true := by
  cases newPrice with
  | none => exact h.holds o (find_some hfind).2.1
  | some p => exact hin p rfl

/-- **Erasure commutes with every call** if the book and the erased one take
    the same prices in the band, and no others occur. -/
theorem erase_call (pf : Platform) {range : Int → Bool} (h : r.Sound True)
    (htakes : ∀ p, band p = true → range p = r.inRange p)
    (hholds : ∀ o ∈ r.all, band o.price = true) {c : Call} (hin : c.InBand band) (now : Clock) :
    (r.erase range).call pf (c.untimed, fun _ => 0) =
      ((r.call pf (c, now)).1.untimed, (r.call pf (c, now)).2.erase range) := by
  rw [← Relabel.retime_call]
  exact Relabel.book_call pf h (fun p hp => ⟨htakes p hp, Iff.rfl⟩) hholds hin now

theorem Fits.takes_iff (h : r.Fits band) (p : Int) (hp : band p = true) : band p = r.inRange p := by
  rw [hp, h.takes p hp]

/-- An accepted order brings in no price but its own. -/
theorem execute_prices (hopen : 0 ≤ order.remainingQuantity) {o : Order}
    (ho : o ∈ (r.execute order now).book.all) :
    (order.restsInBook = true ∧ o.price = order.price) ∨ ∃ m ∈ r.all, o.price = m.price := by
  obtain ⟨side, ho⟩ := mem_all.mp ho
  have hmatch : ∀ x ∈ (r.afterMatch order).orders side, ∃ m ∈ r.all, x.price = m.price := by
    intro x hx
    obtain ⟨m, hm, heq, -, -⟩ := mem_afterMatch hx
    exact ⟨m, mem_all.mpr ⟨side, hm⟩, by rw [heq]⟩
  -- only a remainder that rests can bring in a price
  rw [execute_book r order now hopen] at ho
  split at ho
  · next hrests =>
    rcases mem_rest.mp ho with ⟨-, rfl⟩ | ho
    · exact .inl ⟨hrests.2.2, rfl⟩
    · exact .inr (hmatch o ho)
  · exact .inr (hmatch o ho)

/-- **Step**: a call that stays in the band keeps the book in it. -/
theorem Effect.fits {r' : RefBook} {c : Call} {reply : Reply} (h : r.Effect c reply r')
    (hfit : r.Fits band) (hin : c.InBand band) : r'.Fits band := by
  refine ⟨fun p hp => by rw [h.setup.range_eq]; exact hfit.takes p hp, ?_⟩
  intro x hx
  cases h with
  | refused | killed | unknown | denied => exact hfit.holds x hx
  | cancelled | lost => exact (hfit.remove _).holds x hx
  | resized =>
    obtain ⟨side, hx⟩ := mem_all.mp hx
    obtain ⟨m, hm, rfl⟩ := List.mem_map.mp hx
    have := hfit.holds m (mem_all.mpr ⟨side, hm⟩)
    split <;> exact this
  | reset => simp [mem_all, RefBook.reset] at hx
  | @executed order now hok =>
    rcases execute_prices (Int.le_of_lt (rejectReason_eq_none.mp hok).1) hx with
      ⟨hrests, hp⟩ | ⟨m, hm, hp⟩
    · rw [Order.restsInBook, decide_eq_true_eq] at hrests
      rw [hp]
      exact hin hrests.1
    · rw [hp]
      exact hfit.holds m hm
  | @replaced id quantity price o now timestamp hfind hok =>
    rcases execute_prices (Int.le_of_lt (rejectReason_eq_none.mp hok).1) hx with
      ⟨-, hp⟩ | ⟨m, hm, hp⟩
    · rw [hp]
      exact hfit.replacement hfind hin quantity timestamp
    · rw [hp]
      exact (hfit.remove id).holds m hm

end erasure

end RefBook

/-! ## Section 3: What a caller can observe -/

/-- The answers of all queries on a book. -/
@[ext]
structure Observation where
  bestBid : Option Int
  bestAsk : Option Int
  spread : Option Int
  bidLevelCount : Nat
  askLevelCount : Nat
  orderCount : Nat
  bidDepth : Nat → Run (List PriceLevelView)
  askDepth : Nat → Run (List PriceLevelView)

def OrderBook.observe {S : Type} [LevelStore S] (b : OrderBook S) : Observation where
  bestBid := b.bestBid
  bestAsk := b.bestAsk
  spread := b.spread
  bidLevelCount := b.bidLevelCount
  askLevelCount := b.askLevelCount
  orderCount := b.orderCount
  bidDepth := b.bidDepth
  askDepth := b.askDepth

/-- A call, and all the queries after it. -/
def OrderBook.observedCall {S : Type} [LevelStore S] (pf : Platform) (b : OrderBook S)
    (c : Call × Clock) : Run ((Reply × Observation) × OrderBook S) := do
  let (reply, b) ← b.call pf c
  pure ((reply, b.observe), b)

/-- The answers with depths of at most `m` levels asked for. -/
def Observation.upTo (m : Nat) (o : Observation) : Observation :=
  { o with
    bidDepth := fun n => if n ≤ m then o.bidDepth n else pure []
    askDepth := fun n => if n ≤ m then o.askDepth n else pure [] }

/-- Every depth query returns. -/
def Observation.Answered (o : Observation) : Prop :=
  ∀ n, (o.bidDepth n).isSome ∧ (o.askDepth n).isSome

theorem Observation.Answered.upTo {o : Observation} (h : o.Answered) (m : Nat) :
    (o.upTo m).Answered := by
  intro n
  by_cases hn : n ≤ m
  · simpa only [Observation.upTo, if_pos hn] using h n
  · simp only [Observation.upTo, if_neg hn]
    exact ⟨rfl, rfl⟩

def RefBook.best (r : RefBook) (side : Side) : Option Int :=
  (r.orders side).head?.map Order.price

/-- The queries, answered from the resting orders; `reserve` is what the depth
    queries call first. -/
def RefBook.observe (pf : Platform) (reserve : Nat → Run Unit) (r : RefBook) : Observation where
  bestBid := r.best .buy
  bestAsk := r.best .sell
  spread := match r.best .buy, r.best .sell with
    | some bb, some ba => some (ba - bb)
    | _, _ => none
  bidLevelCount := (depthOf pf (r.orders .buy)).length
  askLevelCount := (depthOf pf (r.orders .sell)).length
  orderCount := r.all.length
  bidDepth := fun n => (reserve n).map fun _ => (depthOf pf (r.orders .buy)).take n
  askDepth := fun n => (reserve n).map fun _ => (depthOf pf (r.orders .sell)).take n

/-- The specification the three books share but for `reserve`: no clock, no
    container. -/
def RefBook.observedCall (pf : Platform) (reserve : Nat → Run Unit) (r : RefBook) (c : Call) :
    (Reply × Observation) × RefBook :=
  let (reply, r) := r.call pf (c.untimed, fun _ => 0)
  ((reply, r.observe pf reserve), r)

/-- What `reserve` does past the levels asked for does not matter. -/
theorem RefBook.observe_upTo {reserve reserve' : Nat → Run Unit} {m : Nat}
    (h : ∀ n ≤ m, reserve n = reserve' n) (pf : Platform) (r : RefBook) :
    (r.observe pf reserve).upTo m = (r.observe pf reserve').upTo m := by
  refine Observation.ext rfl rfl rfl rfl rfl rfl ?_ ?_
  all_goals
    funext n
    by_cases hn : n ≤ m
    · simp only [Observation.upTo, observe, if_pos hn, h n hn]
    · simp only [Observation.upTo, if_neg hn]

/-- Nor does it in a run. -/
theorem RefBook.transcript_upTo {reserve reserve' : Nat → Run Unit} {m : Nat}
    (h : ∀ n ≤ m, reserve n = reserve' n) (pf : Platform) (calls : List Call) (r : RefBook) :
    (Runs.execSpec (RefBook.observedCall pf reserve) r calls).1.map
        (Prod.map id (Observation.upTo m)) =
      (Runs.execSpec (RefBook.observedCall pf reserve') r calls).1.map
        (Prod.map id (Observation.upTo m)) := by
  have hstep : (fun r c => Prod.map (Prod.map id (Observation.upTo m)) id
      (RefBook.observedCall pf reserve r c)) =
        fun r c => Prod.map (Prod.map id (Observation.upTo m)) id
          (RefBook.observedCall pf reserve' r c) := by
    funext r c
    simp only [observedCall, Prod.map, id, RefBook.observe_upTo h]
  rw [Runs.execSpec_map, Runs.execSpec_map, hstep]

namespace Relabel

variable (f : Relabel) (range : Int → Bool) (r : RefBook)

theorem book_best (side : Side) :
    (f.book range r).best (f.side side) = (r.best side).map f.price := by
  unfold RefBook.best
  rw [book_orders, List.head?_map, Option.map_map, Option.map_map]
  rfl

theorem book_depth (pf : Platform) (side : Side) :
    depthOf pf ((f.book range r).orders (f.side side)) =
      (depthOf pf (r.orders side)).map f.view := by
  rw [book_orders, depthOf_order]

theorem book_count : (f.book range r).all.length = r.all.length := by
  unfold RefBook.all book
  simp only [List.length_append, List.length_map]
  -- the two sides, in one order or the other
  cases hs : f.side .buy with
  | buy =>
    have hsell : f.side .sell = .sell := by simpa [hs, Side.opposite] using f.side_opposite .buy
    rw [hsell]
  | sell =>
    have hsell : f.side .sell = .buy := by rw [← hs, f.side_side]
    rw [hsell, Nat.add_comm]

/-- No query looks at timestamps. -/
theorem retime_observe (time : Timestamp → Timestamp) (pf : Platform) (reserve : Nat → Run Unit) :
    ((Relabel.retime time).book range r).observe pf reserve = r.observe pf reserve := by
  have hbest : ∀ side, ((Relabel.retime time).book range r).best side = r.best side := by
    intro side
    have h := (Relabel.retime time).book_best range r side
    exact h.trans (Option.map_id' ..)
  have hdepth : ∀ side, depthOf pf (((Relabel.retime time).book range r).orders side) =
      depthOf pf (r.orders side) := by
    intro side
    have h := (Relabel.retime time).book_depth range r pf side
    exact h.trans (List.map_id' ..)
  have hcount := (Relabel.retime time).book_count range r
  simp only [RefBook.observe, hbest, hdepth, hcount]

end Relabel

theorem RefBook.erase_observe (pf : Platform) (reserve : Nat → Run Unit) (range : Int → Bool)
    (r : RefBook) : (r.erase range).observe pf reserve = r.observe pf reserve :=
  Relabel.retime_observe range r (fun _ => 0) pf reserve

section observing

variable {S : Type} [LevelStore S] [LawfulLevelStore S] {pf : Platform} {b : OrderBook S}

/-- **Queries**: what a valid book answers follows from its resting orders. -/
theorem OrderBook.Valid.observe_eq (h : b.Valid pf True) :
    b.observe = b.reference.observe pf (LevelStore.reserve S) := by
  obtain ⟨qs, h⟩ := h
  have hbest : ∀ side, LevelStore.best side (b.levels side) = b.reference.best side :=
    fun side => h.best_eq side
  have hdepth : ∀ side n, (do
      LevelStore.reserve S n
      LevelStore.depth side (b.levels side) n) =
        (LevelStore.reserve S n).map fun _ => (depthOf pf (b.reference.orders side)).take n := by
    intro side n
    rw [h.depth_eq side n]
    cases LevelStore.reserve S n <;> rfl
  have hcount : ∀ side, LevelStore.levelCount (b.levels side) =
      (depthOf pf (b.reference.orders side)).length := by
    intro side
    rw [LawfulLevelStore.levelCount_eq (h.sides side).wf, OrderBook.reference_orders,
      ← h.entries_eq, List.length_map]
  have horders : b.idIndex.size = b.reference.all.length := by
    rw [(h.store.counted trivial).2.1, h.all_eq, List.length_map]
  have hbid : b.bestBid = b.reference.best .buy := hbest .buy
  have hask : b.bestAsk = b.reference.best .sell := hbest .sell
  have hspread : b.spread = (b.reference.observe pf (LevelStore.reserve S)).spread :=
    congrArg₂ (fun bid ask => match bid, ask with
      | some bb, some ba => some (ba - bb)
      | _, _ => none) hbid hask
  exact Observation.ext hbid hask hspread (hcount .buy) (hcount .sell) horders
    (funext (hdepth .buy)) (funext (hdepth .sell))

/-- **Step simulation**: an observed call goes as the shared specification
    says, whatever the clock shows, if the two take the same prices in the band
    and no others occur. -/
theorem OrderBook.Valid.observedCall_spec {range band : Int → Bool} (h : b.Valid pf True)
    (htakes : ∀ p, band p = true → range p = b.reference.inRange p)
    (hholds : ∀ o ∈ b.reference.all, band o.price = true) {c : Call} (hz : c.NonZero)
    (hin : c.InBand band) (now : Clock) :
    ∃ w b', b.observedCall pf (c, now) = some (w, b') ∧
      Prod.map Reply.untimed id w =
        ((b.reference.erase range).observedCall pf (LevelStore.reserve S) c).1 ∧
      b'.Valid pf True ∧ b.reference.Effect c w.1 b'.reference ∧
      b'.reference.erase range =
        ((b.reference.erase range).observedCall pf (LevelStore.reserve S) c).2 := by
  obtain ⟨b', hrun, hvalid, href⟩ := h.call_spec c now fun _ => hz
  have heff := RefBook.call_effect pf h.sound c now
  rw [← href] at heff
  have hcall := RefBook.erase_call pf h.sound htakes hholds hin now
  refine ⟨_, b', by simp only [OrderBook.observedCall, hrun]; rfl, ?_, hvalid, heff, ?_⟩
  · simp only [RefBook.observedCall, hcall, ← href, RefBook.erase_observe, hvalid.observe_eq]
    rfl
  · simp only [RefBook.observedCall, hcall, href]

end observing

/-! ## Section 4: Equivalence -/

/-- A new book takes the whole band and holds nothing. -/
theorem Approach.create_fits {pf : Platform} {k : Approach} {symbol : SymbolId}
    {minPrice maxPrice : Int} {hint : Nat} {stpPolicy : SelfTradePrevention} {b : k.Book}
    (h : k.create pf symbol minPrice maxPrice hint stpPolicy = some b) :
    b.reference.Fits (Approach.array.accepts minPrice maxPrice) := by
  rw [(Approach.create_spec True h).2]
  refine ⟨fun p hp => ?_, fun o ho => ?_⟩
  · cases k with
    | map | vector => rfl
    | array => exact hp
  · obtain ⟨side, ho⟩ := RefBook.mem_all.mp ho
    cases ho

/-- All books can ask for as many levels as a vector of them can hold. -/
theorem Approach.reserve_eq (k : Approach) {n : Nat} (hn : n ≤ kMaxViews) :
    LevelStore.reserve k.Levels n = some () := by
  cases k with
  | map | vector => rfl
  | array => exact if_pos hn

section three_books

variable {pf : Platform} {symbol : SymbolId} {minPrice maxPrice : Int}
  {stpPolicy : SelfTradePrevention} {hint : Approach → Nat} {book : (k : Approach) → k.Book}
  {calls : List Call} {timed : Approach → List (Call × Clock)}

/-- **The shared transcript**: the calls of each book return, and what they and
    the queries after them answer is, timestamps aside, the specification's. -/
theorem Approach.transcript {k : Approach}
    (hbook : k.create pf symbol minPrice maxPrice (hint k) stpPolicy = some (book k))
    (hcalls : ∀ c ∈ calls, c.NonZero ∧ c.InBand fun p => minPrice ≤ p ∧ p ≤ maxPrice)
    (htimed : (timed k).map Prod.fst = calls) :
    ∃ observed b', Runs.exec (OrderBook.observedCall pf) (book k) (timed k) = some (observed, b') ∧
      observed.map (Prod.map Reply.untimed id) =
        (Runs.execSpec (RefBook.observedCall pf (LevelStore.reserve k.Levels))
          ⟨symbol, stpPolicy, Approach.array.accepts minPrice maxPrice, fun _ => []⟩ calls).1 := by
  let band := Approach.array.accepts minPrice maxPrice
  let start : RefBook := ⟨symbol, stpPolicy, band, fun _ => []⟩
  obtain ⟨hvalid, href⟩ := Approach.create_spec True hbook
  have hstart : (book k).reference.erase band = start := by
    rw [href]
    rfl
  have hok : ∀ a ∈ timed k, a.1.NonZero ∧ a.1.InBand band := by
    intro a ha
    exact hcalls a.1 (htimed ▸ List.mem_map_of_mem ha)
  -- the simulation relation: a valid book that erases to the specification's
  let R : k.Book → RefBook → Prop := fun b t =>
    (b.Valid pf True ∧ b.reference.Fits band) ∧ b.reference.erase band = t
  have hstep : ∀ (b : k.Book) t (a : Call × Clock), R b t → a.1.NonZero ∧ a.1.InBand band →
      ∃ w b', b.observedCall pf a = some (w, b') ∧ Prod.map Reply.untimed id w =
          (t.observedCall pf (LevelStore.reserve k.Levels) a.1).1 ∧
        R b' (t.observedCall pf (LevelStore.reserve k.Levels) a.1).2 := by
    rintro b _ ⟨c, now⟩ ⟨⟨hv, hf⟩, rfl⟩ ⟨hz, hin⟩
    obtain ⟨w, b', hr, hw, hv', heff, he⟩ := hv.observedCall_spec hf.takes_iff hf.holds hz hin now
    exact ⟨w, b', hr, hw, ⟨hv', heff.fits hf hin⟩, he⟩
  obtain ⟨observed, b', hrun, hout, -⟩ := Runs.exec_simulates Prod.fst (Prod.map Reply.untimed id)
    R _ hstep (timed k) (book k) start ⟨⟨hvalid, Approach.create_fits hbook⟩, hstart⟩ hok
  rw [htimed] at hout
  exact ⟨observed, b', hrun, hout⟩

/-- The three books give one transcript, in which all queries return, with
    depths of at most `m` levels asked for after each call. -/
def OneTranscript (pf : Platform) (m : Nat) (book : (k : Approach) → k.Book)
    (timed : Approach → List (Call × Clock)) : Prop :=
  ∃ transcript : List (Reply × Observation), (∀ x ∈ transcript, x.2.Answered) ∧
    ∀ k, ∃ observed b',
      Runs.exec (OrderBook.observedCall pf) (book k) (timed k) = some (observed, b') ∧
        observed.map (Prod.map Reply.untimed (Observation.upTo m)) = transcript

/-- After a call the array's depth faults where the map's does not. -/
theorem not_oneTranscript {m : Nat} (hm : kMaxViews < m) {c : Call}
    (hbook : ∀ k, k.create pf symbol minPrice maxPrice (hint k) stpPolicy = some (book k))
    (hcalls : ∀ c' ∈ c :: calls, c'.NonZero ∧ c'.InBand fun p => minPrice ≤ p ∧ p ≤ maxPrice)
    (htimed : ∀ k, (timed k).map Prod.fst = c :: calls) : ¬ OneTranscript pf m book timed := by
  rintro ⟨transcript, -, hone⟩
  have hshown : ∀ k : Approach, transcript =
      (Runs.execSpec (RefBook.observedCall pf (LevelStore.reserve k.Levels))
        ⟨symbol, stpPolicy, Approach.array.accepts minPrice maxPrice, fun _ => []⟩
        (c :: calls)).1.map (Prod.map id (Observation.upTo m)) := by
    intro k
    obtain ⟨observed, b', hrun, hout⟩ := hone k
    obtain ⟨observed₁, b₁, hrun₁, hout₁⟩ := Approach.transcript (hbook k) hcalls (htimed k)
    rw [hrun] at hrun₁
    cases hrun₁
    rw [← hout₁, ← hout, List.map_map]
    rfl
  -- the answers after the first call
  have hheads := (hshown .map).symm.trans (hshown .array)
  have hdepth := congrArg (fun o => o.2.bidDepth m) (List.cons.inj hheads).1
  have hfault : LevelStore.reserve Approach.array.Levels m = none := if_neg (Nat.not_le.mpr hm)
  simp only [Prod.map, Observation.upTo, RefBook.observe, le_refl, if_true, hfault] at hdepth
  cases hdepth

/-- **One behaviour**: build the three books for the same band and policy and
    make the same calls on each, every one at its own clock.  All calls and
    queries return and there is one transcript of results, trades (timestamps
    aside) and query answers after each call that the three books produce,
    exactly if depths are asked for no more levels than a vector of them can
    hold. -/
theorem three_books_one_behaviour_iff (pf : Platform) (symbol : SymbolId)
    (minPrice maxPrice : Int) (stpPolicy : SelfTradePrevention) (hint : Approach → Nat)
    (book : (k : Approach) → k.Book)
    (hbook : ∀ k, k.create pf symbol minPrice maxPrice (hint k) stpPolicy = some (book k))
    (calls : List Call)
    (hcalls : ∀ c ∈ calls, c.NonZero ∧ c.InBand fun p => minPrice ≤ p ∧ p ≤ maxPrice)
    (timed : Approach → List (Call × Clock)) (htimed : ∀ k, (timed k).map Prod.fst = calls)
    (m : Nat) : OneTranscript pf m book timed ↔ calls = [] ∨ m ≤ kMaxViews := by
  constructor
  · intro hone
    cases calls with
    | nil => exact .inl rfl
    | cons c calls =>
      right
      by_contra hm
      exact not_oneTranscript (Nat.not_le.mp hm) hbook hcalls htimed hone
  · rintro (rfl | hm)
    · -- without a call nothing is answered
      refine ⟨[], List.forall_mem_nil _, fun k => ⟨[], book k, ?_, rfl⟩⟩
      rw [List.map_eq_nil_iff.mp (htimed k)]
      rfl
    · refine ⟨(Runs.execSpec (RefBook.observedCall pf fun _ => some ())
        ⟨symbol, stpPolicy, Approach.array.accepts minPrice maxPrice, fun _ => []⟩
        calls).1.map (Prod.map id (Observation.upTo m)), ?_, fun k => ?_⟩
      · rw [List.forall_mem_map]
        intro x hx
        have hanswered : x.2.Answered :=
          Runs.execSpec_forall (P := fun x => x.2.Answered) (fun _ _ _ => ⟨rfl, rfl⟩) calls _ x hx
        exact hanswered.upTo m
      obtain ⟨observed, b', hrun, hout⟩ := Approach.transcript (hbook k) hcalls (htimed k)
      refine ⟨observed, b', hrun, ?_⟩
      rw [← RefBook.transcript_upTo (fun n hn => k.reserve_eq (hn.trans hm)) pf calls, ← hout,
        List.map_map]
      rfl

end three_books

/-- A bid rests, is hit, is amended to a better price, and is cancelled, on
    books whose clocks disagree. -/
theorem three_books_one_behaviour_mixed :
    ∃ book : (k : Approach) → k.Book,
      (∀ k, k.create .int64 1 90 110 4 .cancelResting = some (book k)) ∧
      OneTranscript .int64 kMaxViews book fun k =>
        [.add ⟨1, 100, 5, 0, 0, 1, 7, .buy, .limit, .gtc⟩,
          .add ⟨2, -3, 2, 0, 0, 1, 8, .sell, .market, .ioc⟩,
          .amend 1 9 (some 101), .cancel 1, .reset].map
            fun c => (c, fun n => if k = .map then n else 40) := by
  have hsome : ∀ k : Approach, (k.create .int64 1 90 110 4 .cancelResting).isSome = true := by
    intro k
    cases k <;> decide +kernel
  have hbook : ∀ k : Approach, k.create .int64 1 90 110 4 .cancelResting =
      some ((k.create .int64 1 90 110 4 .cancelResting).get (hsome k)) :=
    fun k => (Option.some_get (hsome k)).symm
  have hiff := fun calls hcalls => three_books_one_behaviour_iff .int64 1 90 110 .cancelResting
    (fun _ => 4) _ hbook calls hcalls
    (fun k => calls.map fun c => (c, fun n => if k = .map then n else 40))
    (fun k => by simp [Function.comp_def]) kMaxViews
  exact ⟨_, hbook, (hiff _ (by simp [Call.NonZero, Call.InBand, kInvalidOrderId])).mpr
    (.inr le_rfl)⟩

/-- After a cancel that finds nothing, `bid_depth(SIZE_MAX)` is empty on the map
    and on the vector and throws on the array. -/
theorem three_books_differ_at_size_max :
    ∃ after : (k : Approach) → k.Book,
      (∀ k, ∃ replies, k.session .int64 1 90 110 4 .none [(.cancel 1, fun _ => 0)] =
        some (replies, after k)) ∧
      (after .map).bidDepth (2 ^ 64 - 1) = some [] ∧
      (after .vector).bidDepth (2 ^ 64 - 1) = some [] ∧
      (after .array).bidDepth (2 ^ 64 - 1) = none := by
  have hends : ∀ k : Approach, ∃ replies b, k.session .int64 1 90 110 4 .none
      [(.cancel 1, fun _ => 0)] = some (replies, b) ∧
        b.bidDepth (2 ^ 64 - 1) = if k = .array then none else some [] := by
    intro k
    cases k <;> exact Approach.session_ends (by decide +kernel)
  choose replies after hrun hdepth using hends
  exact ⟨after, fun k => ⟨replies k, hrun k⟩, hdepth .map, hdepth .vector, hdepth .array⟩

end LightningLob
