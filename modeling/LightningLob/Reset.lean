import LightningLob.Equivalence

/-! # A reset book is a new one

    `reset` empties a book and keeps what it has allocated: the level arrays
    with their stale prices, the grown pool, the grown id table.  No caller can
    tell the book from a new one by any call or query that follows. -/

namespace LightningLob

/-! ## Section 1: Books that behave alike -/

/-- Two books that stand for the same resting orders, timestamps aside. -/
structure Alike (pf : Platform) {k : Approach} (b b' : k.Book) : Prop where
  valid : b.Valid pf True
  valid' : b'.Valid pf True
  range_eq : b'.inRange = b.inRange
  same : b'.reference.erase b'.inRange = b.reference.erase b.inRange

section lockstep

variable {pf : Platform} {k : Approach} {b b' : k.Book}

theorem Alike.observe_eq (h : Alike pf b b') : b'.observe = b.observe := by
  rw [h.valid.observe_eq, h.valid'.observe_eq, ← RefBook.erase_observe pf _ b'.inRange, h.same,
    RefBook.erase_observe]

/-- **Step**: the same call on both, each at its own clock, returns the same
    and leaves books that are alike. -/
theorem Alike.step (h : Alike pf b b') {c : Call} (hz : c.NonZero) (now now' : Clock) :
    ∃ w e w' e', b.observedCall pf (c, now) = some (w, e) ∧
      b'.observedCall pf (c, now') = some (w', e') ∧
      Prod.map Reply.untimed id w = Prod.map Reply.untimed id w' ∧ Alike pf e e' := by
  have hin : c.InBand fun _ => true := by
    cases c <;> simp [Call.InBand]
  obtain ⟨w, e, hrun, hw, hvalid, heff, hsame⟩ :=
    h.valid.observedCall_spec (fun _ _ => rfl) (fun _ _ => rfl) hz hin now
  obtain ⟨w', e', hrun', hw', hvalid', heff', hsame'⟩ :=
    h.valid'.observedCall_spec (fun _ _ => rfl) (fun _ _ => rfl) hz hin now'
  simp only [OrderBook.reference_inRange, ← h.same] at hw hsame
  have hrange : e.inRange = b.inRange := heff.setup.range_eq
  have hrange' : e'.inRange = b'.inRange := heff'.setup.range_eq
  refine ⟨w, e, w', e', hrun, hrun', hw.trans hw'.symm, hvalid, hvalid', ?_, ?_⟩
  · rw [hrange, hrange', h.range_eq]
  · rw [hrange, hrange']
    exact hsame'.trans hsame.symm

/-- **Run**: books that are alike stay so, and no transcript tells them apart. -/
theorem Alike.run (h : Alike pf b b') {timed timed' : List (Call × Clock)}
    (hcalls : List.Forall₂ (fun a a' => a.1.NonZero ∧ a.1 = a'.1) timed timed') :
    ∃ observed e observed' e',
      Runs.exec (OrderBook.observedCall pf) b timed = some (observed, e) ∧
      Runs.exec (OrderBook.observedCall pf) b' timed' = some (observed', e') ∧
      observed.map (Prod.map Reply.untimed id) = observed'.map (Prod.map Reply.untimed id) := by
  obtain ⟨observed, e, observed', e', hrun, hrun', hout, -⟩ := Runs.exec_lockstep
    (fun b b' a a' (hm : Alike pf b b') (ha : a.1.NonZero ∧ a.1 = a'.1) => by
      obtain ⟨w, e, w', e', hrun, hrun', hw, hm'⟩ := hm.step ha.1 a.2 a'.2
      rw [ha.2] at hrun'
      exact ⟨w, e, w', e', hrun, hrun', hw, hm'⟩) hcalls b b' h
  exact ⟨observed, e, observed', e', hrun, hrun', Runs.forall₂_eq_iff_map_eq.mp hout⟩

end lockstep

/-! ## Section 2: After a reset -/

/-- Every run of a book gets to its end and keeps the symbol, the policy and
    the price band. -/
theorem OrderBook.Valid.exec_setup {S : Type} [LevelStore S] [LawfulLevelStore S] {pf : Platform}
    {b : OrderBook S} (h : b.Valid pf False) (calls : List (Call × Clock)) :
    ∃ replies b', Runs.exec (OrderBook.call pf) b calls = some (replies, b') ∧
      b'.Valid pf False ∧ b.reference.SameSetup b'.reference := by
  have hstep : ∀ (_ : List ((Call × Clock) × Reply)) (b₁ : OrderBook S) (a : Call × Clock),
      b₁.Valid pf False ∧ b.reference.SameSetup b₁.reference → True →
      ∃ reply b₂, b₁.call pf a = some (reply, b₂) ∧ b₂.Valid pf False ∧
        b.reference.SameSetup b₂.reference := by
    rintro - b₁ ⟨c, now⟩ ⟨hvalid, hsetup⟩ -
    obtain ⟨b₂, hcall, hvalid', href⟩ := hvalid.call_spec c now False.elim
    have heff := RefBook.call_effect pf hvalid.sound c now
    rw [← href] at heff
    exact ⟨_, b₂, hcall, hvalid', heff.setup.symbol_eq.trans hsetup.symbol_eq,
      heff.setup.policy_eq.trans hsetup.policy_eq, heff.setup.range_eq.trans hsetup.range_eq⟩
  exact Runs.exec_history hstep calls [] b ⟨h, rfl, rfl, rfl⟩ fun _ _ => trivial

/-- A valid book with the setup of a new one is like the new one once it is
    reset. -/
theorem Alike.reset {pf : Platform} {k : Approach} {symbol : SymbolId} {minPrice maxPrice : Int}
    {hint : Nat} {stpPolicy : SelfTradePrevention} {fresh b : k.Book}
    (hfresh : k.create pf symbol minPrice maxPrice hint stpPolicy = some fresh)
    (hvalid : b.Valid pf False) (hsetup : fresh.reference.SameSetup b.reference) :
    ∃ b', b.reset = some b' ∧ Alike pf fresh b' := by
  obtain ⟨hvalid₀, href₀⟩ := Approach.create_spec True hfresh
  obtain ⟨qs, hrep⟩ := hvalid
  obtain ⟨b', hreset, hrep', href'⟩ := hrep.reset_spec True
  have heq : b'.reference = fresh.reference := by
    rw [href']
    unfold RefBook.reset
    rw [hsetup.symbol_eq, hsetup.policy_eq, hsetup.range_eq, href₀]
  have hrange : b'.inRange = fresh.inRange := congrArg RefBook.inRange heq
  exact ⟨b', hreset, hvalid₀, ⟨_, hrep'⟩, hrange, by rw [heq, hrange]⟩

/-- **Reset**: build a book, make any calls on it and reset it.  The queries
    answer as on a new book built with the same arguments, and whatever calls
    with real ids are then made on both, each at its own clock, all return and
    give the same results, trades (timestamps aside) and query answers. -/
theorem reset_like_new (pf : Platform) (k : Approach) (symbol : SymbolId) (minPrice maxPrice : Int)
    (hint : Nat) (stpPolicy : SelfTradePrevention) (fresh : k.Book)
    (hfresh : k.create pf symbol minPrice maxPrice hint stpPolicy = some fresh)
    (before : List (Call × Clock)) :
    ∃ replies b b', Runs.exec (OrderBook.call pf) fresh before = some (replies, b) ∧
      b.reset = some b' ∧ b'.observe = fresh.observe ∧
      ∀ timed timed' : List (Call × Clock), (∀ a ∈ timed, a.1.NonZero) →
        timed'.map Prod.fst = timed.map Prod.fst →
        ∃ observed e observed' e',
          Runs.exec (OrderBook.observedCall pf) fresh timed = some (observed, e) ∧
          Runs.exec (OrderBook.observedCall pf) b' timed' = some (observed', e') ∧
          observed'.map (Prod.map Reply.untimed id) =
            observed.map (Prod.map Reply.untimed id) := by
  obtain ⟨replies, b, hrun, hvalid, hsetup⟩ :=
    (Approach.create_spec False hfresh).1.exec_setup before
  obtain ⟨b', hreset, halike⟩ := Alike.reset hfresh hvalid hsetup
  refine ⟨replies, b, b', hrun, hreset, halike.observe_eq, ?_⟩
  intro timed timed' hz hsame
  have hcalls : List.Forall₂ (fun a a' => a.1.NonZero ∧ a.1 = a'.1) timed timed' := by
    rw [List.forall₂_and_left]
    exact ⟨hz, Runs.forall₂_eq_iff_map_eq.mpr hsame.symm⟩
  obtain ⟨observed, e, observed', e', hobs, hobs', hout⟩ := halike.run hcalls
  exact ⟨observed, e, observed', e', hobs, hobs', hout.symm⟩

/-- An array book with an ask left in it, and one without an id, is reset and
    takes a bid at the ask's price. -/
theorem reset_like_new_reused :
    ∃ (fresh b b' : Approach.array.Book) (replies : List Reply)
      (observed observed' : List (Reply × Observation)) (e e' : Approach.array.Book),
      Approach.array.create .int64 1 90 110 1 .none = some fresh ∧
      Runs.exec (OrderBook.call .int64) fresh
        [(.add ⟨1, 97, 5, 0, 0, 1, 7, .sell, .limit, .gtc⟩, fun _ => 0),
         (.add ⟨0, 99, 5, 0, 0, 1, 7, .sell, .limit, .gtc⟩, fun _ => 1)] = some (replies, b) ∧
      b.reset = some b' ∧ b'.observe = fresh.observe ∧
      Runs.exec (OrderBook.observedCall .int64) fresh
        [(.add ⟨1, 97, 3, 0, 0, 1, 8, .buy, .limit, .gtc⟩, fun _ => 0)] = some (observed, e) ∧
      Runs.exec (OrderBook.observedCall .int64) b'
        [(.add ⟨1, 97, 3, 0, 0, 1, 8, .buy, .limit, .gtc⟩, fun _ => 6)] = some (observed', e') ∧
      observed'.map (Prod.map Reply.untimed id) = observed.map (Prod.map Reply.untimed id) := by
  have hsome : (Approach.array.create .int64 1 90 110 1 .none).isSome = true := by
    decide +kernel
  obtain ⟨fresh, hfresh⟩ := Option.isSome_iff_exists.mp hsome
  obtain ⟨replies, b, b', hrun, hreset, hobs, hnext⟩ :=
    reset_like_new .int64 .array 1 90 110 1 .none fresh hfresh
      [(.add ⟨1, 97, 5, 0, 0, 1, 7, .sell, .limit, .gtc⟩, fun _ => 0),
       (.add ⟨0, 99, 5, 0, 0, 1, 7, .sell, .limit, .gtc⟩, fun _ => 1)]
  obtain ⟨observed, e, observed', e', hout, hout', hsame⟩ := hnext
    [(.add ⟨1, 97, 3, 0, 0, 1, 8, .buy, .limit, .gtc⟩, fun _ => 0)]
    [(.add ⟨1, 97, 3, 0, 0, 1, 8, .buy, .limit, .gtc⟩, fun _ => 6)]
    (by simp [Call.NonZero, kInvalidOrderId]) rfl
  exact ⟨fresh, b, b', replies, observed, observed', e, e', hfresh, hrun, hreset, hobs, hout,
    hout', hsame⟩

end LightningLob
