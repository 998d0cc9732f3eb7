import LightningLob.Accounting

/-! # Whose orders rest and who traded

    An order keeps its id, its participant and its side for as long as it
    rests, through partial fills and amends, and its trades carry them as one
    of their two legs.  For each participant and side, the open quantity and
    the quantity traded in a call together never exceed what was open before
    and what the call brings in. -/

namespace LightningLob

/-! ## Section 1: Legs -/

/-- One leg of a trade: the order, whose it is, and its side. -/
structure Leg where
  orderId : OrderId
  participantId : ParticipantId
  side : Side
  deriving DecidableEq, Repr

def Order.leg (o : Order) : Leg := ⟨o.id, o.participantId, o.side⟩

def Trade.takerLeg (t : Trade) : Leg := ⟨t.takerOrderId, t.takerParticipantId, t.takerSide⟩

def Trade.makerLeg (t : Trade) : Leg :=
  ⟨t.makerOrderId, t.makerParticipantId, t.takerSide.opposite⟩

theorem Order.participant_of_leg {o m : Order} (h : o.leg = m.leg) :
    o.participantId = m.participantId :=
  congrArg Leg.participantId h

theorem Leaves.leg_eq {m o : Order} (h : Leaves m o) : o.leg = m.leg := by
  rw [h.eq]
  rfl

section folds

variable {policy : SelfTradePrevention} {taker : Order} {rem : Int} {makers : List Order} {r : Fold}

/-- Trading with open makers only takes off the taker. -/
theorem Folds.remaining_le (h : Folds policy taker rem makers r)
    (hpos : ∀ m ∈ makers, 0 < m.remainingQuantity) : r.remaining ≤ rem := by
  induction h with
  | nil | spent | stop | both => exact le_rfl
  | skip _ _ _ _ ih => exact ih fun m hm => hpos m (by simp [hm])
  | @fill rem maker makers r _ _ _ _ ih =>
    have hrest := ih fun m hm => hpos m (by simp [hm])
    have hmaker := hpos maker (by simp)
    show r.remaining ≤ rem
    omega
  | part hrem => exact hrem.le

end folds

namespace RefBook

/-- A real id names one resting order. -/
def UniqueIds (r : RefBook) : Prop :=
  ∀ a ∈ r.all, ∀ b ∈ r.all, a.id = b.id → a.id ≠ kInvalidOrderId → a = b

/-- The order with a real id is the one found. -/
theorem UniqueIds.eq_of_find {r : RefBook} (h : r.UniqueIds) {id : OrderId} {o m : Order}
    (hfind : r.find id = some o) (hm : m ∈ r.all) (hid : m.id = id) : m = o := by
  obtain ⟨hne, ho, hoid⟩ := find_some hfind
  exact h m hm o ho (hid.trans hoid.symm) (by rw [hid]; exact hne)

/-! ## Section 2: Where resting orders come from -/

section owners

variable {nz : Prop} {r r' : RefBook} {order : Order} {now : Clock} {c : Call} {reply : Reply}

/-- After an accepted order, an order rests because it did before or because
    it is what is left of that order. -/
theorem Sound.execute_leg (h : r.Sound nz) (hopen : 0 ≤ order.remainingQuantity) {o' : Order}
    (ho' : o' ∈ (r.execute order now).book.all) :
    (∃ o ∈ r.all, o'.leg = o.leg ∧ o'.remainingQuantity ≤ o.remainingQuantity) ∨
      (o'.leg = order.leg ∧ o'.remainingQuantity ≤ order.remainingQuantity) := by
  obtain ⟨side, hside⟩ := mem_all.mp ho'
  have hmatch : ∀ x ∈ (r.afterMatch order).orders side,
      ∃ o ∈ r.all, x.leg = o.leg ∧ x.remainingQuantity ≤ o.remainingQuantity := by
    intro x hx
    obtain ⟨m, hm, hleaves⟩ := mem_afterMatch hx
    exact ⟨m, mem_all.mpr ⟨side, hm⟩, hleaves.leg_eq, hleaves.le⟩
  rw [execute_book r order now hopen] at hside
  split at hside
  · rcases mem_rest.mp hside with ⟨-, rfl⟩ | hside
    · right
      exact ⟨rfl, (fold_folds _ _ _ _).remaining_le fun m hm => (h.maker_open hm).2⟩
    · exact .inl (hmatch o' hside)
  · exact .inl (hmatch o' hside)

/-- The amend takes the order `o` out and the book accepts its replacement. -/
structure Replaces (r : RefBook) (id : OrderId) (quantity : Int) (price : Option Int)
    (o : Order) : Prop where
  found : r.find id = some o
  quantity_pos : 0 < quantity
  price_pos : 0 < price.getD o.price
  in_range : r.inRange (price.getD o.price) = true

instance (r : RefBook) (id : OrderId) (quantity : Int) (price : Option Int) (o : Order) :
    Decidable (r.Replaces id quantity price o) :=
  decidable_of_iff (r.find id = some o ∧ 0 < quantity ∧ 0 < price.getD o.price ∧
      r.inRange (price.getD o.price) = true)
    ⟨fun ⟨h₁, h₂, h₃, h₄⟩ => ⟨h₁, h₂, h₃, h₄⟩, fun ⟨h₁, h₂, h₃, h₄⟩ => ⟨h₁, h₂, h₃, h₄⟩⟩

/-- Where a resting order of the next book comes from. -/
inductive Origin (r : RefBook) (c : Call) (o' : Order) : Prop where
  | rested (o : Order) (ho : o ∈ r.all) (hleg : o'.leg = o.leg)
      (hle : o'.remainingQuantity ≤ o.remainingQuantity)
  | added (order : Order) (hc : c = .add order) (hok : r.rejectReason order = none)
      (hleg : o'.leg = order.leg) (hle : o'.remainingQuantity ≤ order.quantity)
  | amended (id : OrderId) (quantity : Int) (price : Option Int) (o : Order)
      (hc : c = .amend id quantity price) (hrepl : r.Replaces id quantity price o)
      (hleg : o'.leg = o.leg) (hle : o'.remainingQuantity ≤ quantity)

/-- An accepted replacement is one of a resting Limit order. -/
theorem Sound.replaces (h : r.Sound nz) {id : OrderId} {quantity : Int} {price : Option Int}
    {o : Order} {timestamp : Timestamp} (hfind : r.find id = some o)
    (hok : (r.remove id).rejectReason (OrderBook.replacement o quantity price timestamp) = none) :
    r.Replaces id quantity price o := by
  obtain ⟨hq, hlimit, -⟩ := rejectReason_eq_none.mp hok
  have hrests := (find_placed h hfind).rests
  rw [Order.restsInBook, decide_eq_true_eq] at hrests
  obtain ⟨hp, hr⟩ := hlimit hrests.1
  exact ⟨hfind, hq, hp, hr⟩

/-- **Origin**: every order of the next book rested before, was added by the
    call, or is the order the call replaces. -/
theorem Effect.origin (h : r.Effect c reply r') (hs : r.Sound nz) (hu : r.UniqueIds)
    {o' : Order} (ho' : o' ∈ r'.all) : r.Origin c o' := by
  cases h with
  | refused | killed | unknown | denied => exact .rested o' ho' rfl le_rfl
  | cancelled | lost => exact .rested o' (mem_remove.mp ho').1 rfl le_rfl
  | reset => simp [mem_all, RefBook.reset] at ho'
  | @executed order now hok =>
    have hopen : 0 ≤ order.opened.remainingQuantity :=
      Int.le_of_lt (rejectReason_eq_none.mp hok).1
    rcases hs.execute_leg hopen ho' with ⟨o, ho, hleg, hle⟩ | ⟨hleg, hle⟩
    · exact .rested o ho hleg hle
    · exact .added order rfl hok hleg hle
  | @resized id quantity price o hfind _ hle =>
    obtain ⟨side, hside⟩ := mem_all.mp ho'
    obtain ⟨m, hm, rfl⟩ := List.mem_map.mp hside
    have hmall : m ∈ r.all := mem_all.mpr ⟨side, hm⟩
    by_cases hid : m.id = id
    -- the order resized is the order found, and it only shrinks
    · rw [if_pos hid]
      have hmo := hu.eq_of_find hfind hmall hid
      exact .rested m hmall rfl (by rw [hmo]; exact hle)
    · rw [if_neg hid]
      exact .rested m hmall rfl le_rfl
  | @replaced id quantity price o now timestamp hfind hok =>
    have hopen : 0 ≤ (OrderBook.replacement o quantity price timestamp).remainingQuantity :=
      Int.le_of_lt (rejectReason_eq_none.mp hok).1
    rcases (hs.remove id).execute_leg hopen ho' with ⟨x, hx, hleg, hle⟩ | ⟨hleg, hle⟩
    · exact .rested x (mem_remove.mp hx).1 hleg hle
    · exact .amended id quantity price o rfl (hs.replaces hfind hok) hleg hle

/-! ## Section 3: Who trades -/

/-- What holds of every trade of a call: its legs are those of a resting order
    and of the order the call brings in. -/
structure TradedBy (r : RefBook) (c : Call) (t : Trade) : Prop where
  symbol_eq : t.symbol = r.symbol
  quantity_pos : 0 < t.quantity
  maker : ∃ m ∈ r.all, t.makerLeg = m.leg
  taker : (∃ order, c = .add order ∧ r.rejectReason order = none ∧ t.takerLeg = order.leg) ∨
    ∃ o ∈ r.all, t.takerLeg = o.leg

/-- The trades of an accepted order. -/
theorem Sound.execute_trade (h : r.Sound nz) {t : Trade} (ht : t ∈ (r.execute order now).trades) :
    t.symbol = r.symbol ∧ 0 < t.quantity ∧ (∃ m ∈ r.all, t.makerLeg = m.leg) ∧
      t.takerLeg = order.leg := by
  rw [execute_trades] at ht
  obtain ⟨f, hf, i, rfl⟩ := mem_tradesOf ht
  obtain ⟨hm, hq, -⟩ := (fold_folds _ _ _ _).fill_spec (fun m hm => (h.maker_open hm).2) hf
  -- a maker rests on the side opposite to the taker's
  have hside := (h.placed _ f.1 (List.mem_of_mem_filter hm)).side_eq
  refine ⟨rfl, hq, ⟨f.1, (h.maker_open hm).1, ?_⟩, rfl⟩
  unfold Trade.makerLeg Order.leg
  rw [hside]

/-- **Legs**: every trade of a call is between a resting order and the order
    the call brings in. -/
theorem Effect.tradedBy (h : r.Effect c reply r') (hs : r.Sound nz) {t : Trade}
    (ht : t ∈ reply.trades) : r.TradedBy c t := by
  cases h with
  | executed hok =>
    obtain ⟨hsym, hq, hm, htaker⟩ := hs.execute_trade ht
    exact ⟨hsym, hq, hm, .inl ⟨_, rfl, hok, htaker⟩⟩
  | @replaced id quantity price o now timestamp hfind hok =>
    obtain ⟨hsym, hq, ⟨m, hm, hleg⟩, htaker⟩ := (hs.remove id).execute_trade ht
    exact ⟨hsym, hq, ⟨m, (mem_remove.mp hm).1, hleg⟩, .inr ⟨o, (find_some hfind).2.1, htaker⟩⟩
  | _ => cases ht

end owners

end RefBook

/-- Real ids are unique in every valid book. -/
theorem OrderBook.Valid.uniqueIds {S : Type} [LevelStore S] [LawfulLevelStore S] {pf : Platform}
    {nz : Prop} {b : OrderBook S} (h : b.Valid pf nz) : b.reference.UniqueIds := by
  obtain ⟨qs, h⟩ := h
  intro x hx y hy hid hne
  rw [h.all_eq] at hx hy
  obtain ⟨i, hi, rfl⟩ := List.mem_map.mp hx
  obtain ⟨j, hj, rfl⟩ := List.mem_map.mp hy
  rw [h.store.id_unique hi hj hne hid.symm]

end LightningLob
