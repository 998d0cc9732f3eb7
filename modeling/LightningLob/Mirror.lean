import LightningLob.Equivalence

/-! # The two sides of a book are mirror images

    Every algorithm of a book is written twice, once for bids and once for
    asks.  Flip the side of every order and reflect every price within the
    band: the book does the same, seen in a mirror. -/

namespace LightningLob

/-! ## Section 1: Mirror images -/

/-- The order on the other side, its limit reflected to `m - price`. -/
def Order.mirror (m : Int) (o : Order) : Order :=
  { o with side := o.side.opposite, price := if o.type = .limit then m - o.price else o.price }

def Trade.mirror (m : Int) (t : Trade) : Trade :=
  { t with takerSide := t.takerSide.opposite, price := m - t.price }

def Reply.mirror (m : Int) (r : Reply) : Reply := { r with trades := r.trades.map (Trade.mirror m) }

def PriceLevelView.mirror (m : Int) (v : PriceLevelView) : PriceLevelView :=
  { v with price := m - v.price }

def Call.mirror (m : Int) : Call → Call
  | .add order => .add (order.mirror m)
  | .amend id newQuantity newPrice => .amend id newQuantity (newPrice.map fun p => m - p)
  | c => c

/-- The answers of the queries with bids and asks exchanged. -/
def Observation.mirror (m : Int) (o : Observation) : Observation where
  bestBid := o.bestAsk.map fun p => m - p
  bestAsk := o.bestBid.map fun p => m - p
  spread := o.spread
  bidLevelCount := o.askLevelCount
  askLevelCount := o.bidLevelCount
  orderCount := o.orderCount
  bidDepth := fun n => (o.askDepth n).map (List.map (PriceLevelView.mirror m))
  askDepth := fun n => (o.bidDepth n).map (List.map (PriceLevelView.mirror m))

/-- The mirror as a rewriting, of the times too if asked. -/
def Relabel.mirror (m : Int) (time : Timestamp → Timestamp) : Relabel where
  side := Side.opposite
  price := fun p => m - p
  time := time
  side_side := fun s => by cases s <;> rfl
  side_opposite := fun _ => rfl
  better_eq := fun s p q => by
    rw [Bool.eq_iff_iff]
    cases s <;> simp [better, Side.opposite]

/-- Reflecting a call and rewriting its times is one rewriting. -/
theorem Relabel.retime_mirror (m : Int) (time : Timestamp → Timestamp) (c : Call) :
    (Relabel.retime time).call (c.mirror m) = (Relabel.mirror m time).call c := by
  cases c with
  | add order =>
    show Call.add ((Relabel.retime time).incoming (order.mirror m)) =
      .add ((Relabel.mirror m time).incoming order)
    unfold Relabel.incoming
    rw [show (Relabel.retime time).price (order.mirror m).price = (order.mirror m).price from rfl,
      ite_self]
    rfl
  | amend id newQuantity newPrice =>
    show Call.amend id newQuantity ((newPrice.map fun p => m - p).map fun p => p) =
      .amend id newQuantity (newPrice.map fun p => m - p)
    rw [Option.map_id']
  | cancel | reset => rfl

/-! ## Section 2: Two books in step -/

/-- Seen in the mirror, the queries answer with bids and asks exchanged. -/
theorem RefBook.mirror_observe (m : Int) (time : Timestamp → Timestamp) (range : Int → Bool)
    (pf : Platform) (reserve : Nat → Run Unit) (r : RefBook) :
    ((Relabel.mirror m time).book range r).observe pf reserve =
      (r.observe pf reserve).mirror m := by
  have hbest : ∀ side, ((Relabel.mirror m time).book range r).best side.opposite =
      (r.best side).map fun p => m - p :=
    (Relabel.mirror m time).book_best range r
  have hdepth : ∀ side, depthOf pf (((Relabel.mirror m time).book range r).orders side.opposite) =
      (depthOf pf (r.orders side)).map (PriceLevelView.mirror m) :=
    (Relabel.mirror m time).book_depth range r pf
  have hcount := (Relabel.mirror m time).book_count range r
  have hbid := hbest .sell
  have hask := hbest .buy
  simp only [Side.opposite] at hbid hask
  have hbids := hdepth .sell
  have hasks := hdepth .buy
  simp only [Side.opposite] at hbids hasks
  have hspread : (((Relabel.mirror m time).book range r).observe pf reserve).spread =
      (r.observe pf reserve).spread := by
    simp only [observe, hbid, hask]
    cases r.best .buy <;> cases r.best .sell <;> simp
  refine Observation.ext hbid hask hspread ?_ ?_ hcount ?_ ?_
  · simp [observe, Observation.mirror, hbids]
  · simp [observe, Observation.mirror, hasks]
  · funext n
    cases hn : reserve n <;> simp [observe, Observation.mirror, hbids, hn, List.map_take]
  · funext n
    cases hn : reserve n <;> simp [observe, Observation.mirror, hasks, hn, List.map_take]

/-- The second book is the first one seen in the mirror, up to what `time`
    keeps of the clock. -/
structure Mirrored (pf : Platform) (m : Int) (time : Timestamp → Timestamp) (band : Int → Bool)
    {k : Approach} (b b' : k.Book) : Prop where
  valid : b.Valid pf True
  valid' : b'.Valid pf True
  fits : b.reference.Fits band
  reflects : ∀ p, band p = true → b'.inRange (m - p) = true ∧ 0 < p ∧ 0 < m - p
  same : (Relabel.mirror m time).book b'.inRange b.reference =
    (Relabel.retime time).book b'.inRange b'.reference

section lockstep

variable {pf : Platform} {m : Int} {time : Timestamp → Timestamp} {band : Int → Bool}
  {k : Approach} {b b' : k.Book}

/-- **Step**: a call on a book and the reflected call on its mirror image, at
    clocks that `time` does not tell apart, return mirror images of each other
    and leave mirror images. -/
theorem Mirrored.step (h : Mirrored pf m time band b b') {c : Call} (hz : c.NonZero)
    (hin : c.InBand band) {now now' : Clock} (hnow : time ∘ now' = time ∘ now) :
    ∃ w e w' e', b.observedCall pf (c, now) = some (w, e) ∧
      b'.observedCall pf (c.mirror m, now') = some (w', e') ∧
      ((Relabel.retime time).reply w'.1 = (Relabel.mirror m time).reply w.1 ∧
        w'.2 = w.2.mirror m) ∧ Mirrored pf m time band e e' := by
  obtain ⟨e, hrun, hvalid, href⟩ := h.valid.call_spec c now fun _ => hz
  have hz' : (c.mirror m).NonZero := by cases c <;> exact hz
  obtain ⟨e', hrun', hvalid', href'⟩ := h.valid'.call_spec (c.mirror m) now' fun _ => hz'
  have heff := RefBook.call_effect pf h.valid.sound c now
  rw [← href] at heff
  have heff' := RefBook.call_effect pf h.valid'.sound (c.mirror m) now'
  rw [← href'] at heff'
  have hrange : e'.inRange = b'.inRange := heff'.setup.range_eq
  -- both calls, rewritten, are one call on one book
  have hkeeps : ∀ p, band p = true →
      (Relabel.mirror m time).Keeps b'.inRange b.reference p := by
    intro p hp
    obtain ⟨hin', hpos, hpos'⟩ := h.reflects p hp
    refine ⟨?_, ?_⟩
    · show b'.inRange (m - p) = _
      rw [hin', h.fits.takes p hp]
    · show m - p ≤ 0 ↔ p ≤ 0
      omega
  have hcall := Relabel.book_call pf h.valid.sound hkeeps h.fits.holds hin now
  have hcall' := Relabel.retime_book_call pf time h.valid'.sound (c.mirror m) now'
  rw [Relabel.retime_mirror, OrderBook.reference_inRange, hnow, ← h.same,
    show time ∘ now = (Relabel.mirror m time).time ∘ now from rfl, hcall] at hcall'
  obtain ⟨hreply, hbook⟩ := Prod.mk.inj hcall'
  rw [← href, ← href', ← hrange] at hbook
  refine ⟨_, e, _, e', by simp only [OrderBook.observedCall, hrun]; rfl,
    by simp only [OrderBook.observedCall, hrun']; rfl, ⟨hreply.symm, ?_⟩,
    hvalid, hvalid', heff.fits h.fits hin, ?_, hbook⟩
  · show e'.observe = e.observe.mirror m
    rw [hvalid.observe_eq, hvalid'.observe_eq, ← RefBook.mirror_observe m time e'.inRange, hbook,
      Relabel.retime_observe]
  · rw [hrange]
    exact h.reflects

end lockstep

/-! ## Section 3: Whole runs -/

/-- A new book and another new one, for the reflection within the band. -/
theorem Mirrored.create {pf : Platform} {k : Approach} {symbol : SymbolId}
    {minPrice maxPrice : Int} {hint hint' : Nat} {stpPolicy : SelfTradePrevention} {b b' : k.Book}
    (hb : k.create pf symbol minPrice maxPrice hint stpPolicy = some b)
    (hb' : k.create pf symbol minPrice maxPrice hint' stpPolicy = some b') (hmin : 0 < minPrice)
    (time : Timestamp → Timestamp) :
    Mirrored pf (minPrice + maxPrice) time (Approach.array.accepts minPrice maxPrice) b b' := by
  obtain ⟨hvalid, href⟩ := Approach.create_spec True hb
  obtain ⟨hvalid', href'⟩ := Approach.create_spec True hb'
  have hrange : b'.inRange = k.accepts minPrice maxPrice := congrArg RefBook.inRange href'
  refine ⟨hvalid, hvalid', Approach.create_fits hb, ?_, ?_⟩
  · intro p hp
    have hband : minPrice ≤ p ∧ p ≤ maxPrice := by simpa [Approach.accepts] using hp
    refine ⟨?_, by omega, by omega⟩
    rw [hrange]
    cases k with
    | map | vector => rfl
    | array =>
      show decide (minPrice ≤ minPrice + maxPrice - p ∧
        minPrice + maxPrice - p ≤ maxPrice) = true
      rw [decide_eq_true_eq]
      omega
  · rw [href, href']
    rfl

/-- A call on the one book and the reflected call on the other, at clocks that
    `time` does not tell apart. -/
structure Reflects (m : Int) (time : Timestamp → Timestamp) (band : Int → Bool)
    (a a' : Call × Clock) : Prop where
  nonZero : a.1.NonZero
  inBand : a.1.InBand band
  call_eq : a'.1 = a.1.mirror m
  clock_eq : time ∘ a'.2 = time ∘ a.2

/-- **Run**: mirror images stay mirror images. -/
theorem Mirrored.run {pf : Platform} {m : Int} {time : Timestamp → Timestamp} {band : Int → Bool}
    {k : Approach} {b b' : k.Book} (h : Mirrored pf m time band b b')
    {timed timed' : List (Call × Clock)}
    (hcalls : List.Forall₂ (Reflects m time band) timed timed') :
    ∃ observed e observed' e',
      Runs.exec (OrderBook.observedCall pf) b timed = some (observed, e) ∧
      Runs.exec (OrderBook.observedCall pf) b' timed' = some (observed', e') ∧
      observed'.map (Prod.map (Relabel.retime time).reply id) =
        observed.map (Prod.map (Relabel.mirror m time).reply (Observation.mirror m)) := by
  obtain ⟨observed, e, observed', e', hrun, hrun', hout, -⟩ := Runs.exec_lockstep
    (O := fun w w' => Prod.map (Relabel.mirror m time).reply (Observation.mirror m) w =
      Prod.map (Relabel.retime time).reply id w')
    (fun b b' a a' (hm : Mirrored pf m time band b b') ha => by
      obtain ⟨w, e, w', e', hrun, hrun', ⟨hreply, hobs⟩, hm'⟩ :=
        hm.step ha.nonZero ha.inBand ha.clock_eq
      refine ⟨w, e, w', e', hrun, ?_, Prod.ext hreply.symm hobs.symm, hm'⟩
      rw [← hrun', ← ha.call_eq]) hcalls b b' h
  exact ⟨observed, e, observed', e', hrun, hrun', (Runs.forall₂_eq_iff_map_eq.mp hout).symm⟩

/-- **Mirror symmetry**: build two books of a kind for the same band, make any
    calls within the band on the one and the reflected calls on the other.  All
    calls return; after each, the replies and the answers of all queries are
    mirror images of each other, up to the timestamps of the trades, and these
    are the same too if the two clocks are. -/
theorem mirror_symmetry (pf : Platform) (k : Approach) (symbol : SymbolId)
    (minPrice maxPrice : Int) (hmin : 0 < minPrice) (stpPolicy : SelfTradePrevention)
    (hint hint' : Nat) (b b' : k.Book)
    (hb : k.create pf symbol minPrice maxPrice hint stpPolicy = some b)
    (hb' : k.create pf symbol minPrice maxPrice hint' stpPolicy = some b')
    (timed timed' : List (Call × Clock))
    (hcalls : ∀ a ∈ timed, a.1.NonZero ∧ a.1.InBand fun p => minPrice ≤ p ∧ p ≤ maxPrice)
    (hmirror : timed'.map Prod.fst = timed.map fun a => a.1.mirror (minPrice + maxPrice)) :
    ∃ observed e observed' e',
      Runs.exec (OrderBook.observedCall pf) b timed = some (observed, e) ∧
      Runs.exec (OrderBook.observedCall pf) b' timed' = some (observed', e') ∧
      observed'.map (Prod.map Reply.untimed id) =
        (observed.map (Prod.map (Reply.mirror (minPrice + maxPrice))
          (Observation.mirror (minPrice + maxPrice)))).map (Prod.map Reply.untimed id) ∧
      (timed'.map Prod.snd = timed.map Prod.snd →
        observed' = observed.map (Prod.map (Reply.mirror (minPrice + maxPrice))
          (Observation.mirror (minPrice + maxPrice)))) := by
  have hband : ∀ a ∈ timed, a.1.NonZero ∧
      a.1.InBand (Approach.array.accepts minPrice maxPrice) := hcalls
  have hpairs : List.Forall₂ (fun a a' => (a.1.NonZero ∧
      a.1.InBand (Approach.array.accepts minPrice maxPrice)) ∧
      a.1.mirror (minPrice + maxPrice) = a'.1) timed timed' := by
    rw [List.forall₂_and_left]
    exact ⟨hband, Runs.forall₂_eq_iff_map_eq.mpr hmirror.symm⟩
  -- times erased, any two clocks look alike
  obtain ⟨observed, e, observed', e', hrun, hrun', hout⟩ :=
    (Mirrored.create hb hb' hmin fun _ => 0).run
      (hpairs.imp fun a a' ha => ⟨ha.1.1, ha.1.2, ha.2.symm, rfl⟩)
  refine ⟨observed, e, observed', e', hrun, hrun', ?_, ?_⟩
  · rw [List.map_map]
    refine hout.trans (List.map_congr_left fun w _ => Prod.ext ?_ rfl)
    have htrades : (w.1.trades.map (Trade.mirror (minPrice + maxPrice))).map Trade.untimed =
        w.1.trades.map (Relabel.mirror (minPrice + maxPrice) fun _ => 0).trade := List.map_map
    exact congrArg (Reply.mk w.1.answer) htrades.symm
  · intro hclock
    -- the same clocks: nothing needs to be erased
    have heq := (List.zip_of_prod hmirror hclock).trans (List.zip_map' ..)
    have hsame : List.Forall₂ (Reflects (minPrice + maxPrice) id
        (Approach.array.accepts minPrice maxPrice)) timed timed' := by
      rw [heq, List.forall₂_map_right_iff, List.forall₂_same]
      exact fun a ha => ⟨(hband a ha).1, (hband a ha).2, rfl, rfl⟩
    obtain ⟨observed₁, e₁, observed₁', e₁', hrun₁, hrun₁', hout₁⟩ :=
      (Mirrored.create hb hb' hmin id).run hsame
    obtain ⟨rfl, -⟩ := Prod.mk.inj (Option.some.inj (hrun.symm.trans hrun₁))
    obtain ⟨rfl, -⟩ := Prod.mk.inj (Option.some.inj (hrun'.symm.trans hrun₁'))
    have hid : Prod.map (Relabel.retime id).reply id = (id : Reply × Observation → _) := by
      funext w
      exact Prod.ext (congrArg (Reply.mk w.1.answer) (List.map_id' w.1.trades)) rfl
    rw [hid, List.map_id] at hout₁
    exact hout₁

/-- An ask rests, is hit by a Market order and amended; its image is a bid. -/
theorem mirror_symmetry_ask_hit :
    ∃ (b : Approach.array.Book) (observed observed' : List (Reply × Observation))
      (e e' : Approach.array.Book),
      Approach.array.create .int64 1 90 110 4 .cancelBoth = some b ∧
      Runs.exec (OrderBook.observedCall .int64) b
        [(.add ⟨1, 97, 5, 0, 0, 1, 7, .sell, .limit, .gtc⟩, fun _ => 0),
         (.add ⟨2, 0, 2, 0, 0, 1, 8, .buy, .market, .ioc⟩, fun n => n),
         (.amend 1 9 (some 91), fun _ => 4)] = some (observed, e) ∧
      Runs.exec (OrderBook.observedCall .int64) b
        [(.add ⟨1, 103, 5, 0, 0, 1, 7, .buy, .limit, .gtc⟩, fun _ => 0),
         (.add ⟨2, 0, 2, 0, 0, 1, 8, .sell, .market, .ioc⟩, fun n => n),
         (.amend 1 9 (some 109), fun _ => 4)] = some (observed', e') ∧
      observed' = observed.map (Prod.map (Reply.mirror 200) (Observation.mirror 200)) := by
  have hsome : (Approach.array.create .int64 1 90 110 4 .cancelBoth).isSome = true := by
    decide +kernel
  obtain ⟨b, hb⟩ := Option.isSome_iff_exists.mp hsome
  obtain ⟨observed, e, observed', e', hrun, hrun', -, hexact⟩ :=
    mirror_symmetry .int64 .array 1 90 110 (by decide) .cancelBoth 4 4 b b hb hb
      [(.add ⟨1, 97, 5, 0, 0, 1, 7, .sell, .limit, .gtc⟩, fun _ => 0),
       (.add ⟨2, 0, 2, 0, 0, 1, 8, .buy, .market, .ioc⟩, fun n => n),
       (.amend 1 9 (some 91), fun _ => 4)]
      [(.add ⟨1, 103, 5, 0, 0, 1, 7, .buy, .limit, .gtc⟩, fun _ => 0),
       (.add ⟨2, 0, 2, 0, 0, 1, 8, .sell, .market, .ioc⟩, fun n => n),
       (.amend 1 9 (some 109), fun _ => 4)]
      (by simp [Call.NonZero, Call.InBand, kInvalidOrderId]) (by decide)
  exact ⟨b, observed, observed', e, e', hb, hrun, hrun', hexact rfl⟩

end LightningLob
