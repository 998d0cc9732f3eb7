import LightningLob.Ownership
import LightningLob.Positions

/-! # What a participant may still trade

    The exposure of a participant on a side is its open quantity there.  A
    call turns exposure into trades and adds to it only what an accepted order
    or an accepted replacement brings in. -/

namespace LightningLob

/-! ## Section 1: Open quantities -/

/-- The open quantity of a participant's orders. -/
def openOf (participant : ParticipantId) (os : List Order) : Int :=
  quantityOf (os.filter fun o => o.participantId = participant)

section open_quantity

variable {p : ParticipantId} {o : Order} {os os' : List Order}

@[simp] theorem openOf_nil : openOf p [] = 0 := rfl

theorem openOf_cons : openOf p (o :: os) =
    (if o.participantId = p then o.remainingQuantity else 0) + openOf p os := by
  by_cases h : o.participantId = p <;> simp [openOf, quantityOf, h]

theorem openOf_append : openOf p (os ++ os') = openOf p os + openOf p os' := by
  simp [openOf, quantityOf]

theorem openOf_nonneg (h : ∀ o ∈ os, 0 < o.remainingQuantity) : 0 ≤ openOf p os := by
  induction os with
  | nil => exact le_rfl
  | cons o os ih =>
    have hrest := ih fun x hx => h x (by simp [hx])
    have ho := h o (by simp)
    rw [openOf_cons]
    split <;> omega

/-- Joining a side adds the order's open quantity. -/
theorem openOf_place : openOf p (place o os) =
    (if o.participantId = p then o.remainingQuantity else 0) + openOf p os := by
  unfold place
  rw [openOf_append, openOf_cons]
  have hsplit : openOf p os = _ :=
    congrArg (openOf p) (List.takeWhile_append_dropWhile
      (p := fun x => ¬ better o.side o.price x.price) (l := os)).symm
  rw [hsplit, openOf_append]
  omega

/-- Taking orders out does not add to what is open. -/
theorem openOf_filter_le (keep : Order → Bool) (h : ∀ o ∈ os, 0 < o.remainingQuantity) :
    openOf p (os.filter keep) ≤ openOf p os := by
  induction os with
  | nil => exact le_rfl
  | cons o os ih =>
    have hrest := ih fun x hx => h x (by simp [hx])
    have ho := h o (by simp)
    rw [List.filter_cons]
    split
    · rw [openOf_cons, openOf_cons]
      omega
    · rw [openOf_cons]
      split <;> omega

/-- Taking an order out takes its open quantity off. -/
theorem openOf_remove_le (p : ParticipantId) (keep : Order → Bool)
    (h : ∀ o ∈ os, 0 < o.remainingQuantity)
    (ho : o ∈ os) (hkeep : keep o = false) :
    openOf p (os.filter keep) + (if o.participantId = p then o.remainingQuantity else 0) ≤
      openOf p os := by
  induction os with
  | nil => cases ho
  | cons x os ih =>
    have hpos : ∀ y ∈ os, 0 < y.remainingQuantity := fun y hy => h y (by simp [hy])
    rw [openOf_cons]
    rcases List.mem_cons.mp ho with rfl | ho
    · rw [List.filter_cons_of_neg (by simp [hkeep])]
      have hle := openOf_filter_le (p := p) keep hpos
      omega
    · have hrest := ih hpos ho
      have hx : 0 ≤ if x.participantId = p then x.remainingQuantity else 0 := by
        have := h x (by simp)
        split <;> omega
      rw [List.filter_cons]
      by_cases hk : keep x = true
      · rw [if_pos hk, openOf_cons]
        omega
      · rw [if_neg hk]
        omega

/-- Shrinking orders in place does not add to what is open. -/
theorem openOf_map_le {f : Order → Order} (hp : ∀ o, (f o).participantId = o.participantId)
    (hle : ∀ o ∈ os, (f o).remainingQuantity ≤ o.remainingQuantity) :
    openOf p (os.map f) ≤ openOf p os := by
  induction os with
  | nil => exact le_rfl
  | cons o os ih =>
    have hrest := ih fun x hx => hle x (by simp [hx])
    have ho := hle o (by simp)
    rw [List.map_cons, openOf_cons, openOf_cons, hp]
    split <;> omega

end open_quantity

/-! ## Section 2: Exposure through a fold -/

/-- The quantity taken from a participant's makers. -/
def takenOf (participant : ParticipantId) (fills : List (Order × Int)) : Int :=
  ((fills.filter fun f => f.1.participantId = participant).map Prod.snd).sum

theorem takenOf_cons (p : ParticipantId) (f : Order × Int) (fills : List (Order × Int)) :
    takenOf p (f :: fills) = (if f.1.participantId = p then f.2 else 0) + takenOf p fills := by
  by_cases h : f.1.participantId = p <;> simp [takenOf, h]

/-- What is taken from a participant's makers is no longer open. -/
theorem Folds.exposure {policy : SelfTradePrevention} {taker : Order} {rem : Int}
    {makers : List Order} {r : Fold} (h : Folds policy taker rem makers r) (p : ParticipantId)
    (hpos : ∀ m ∈ makers, 0 < m.remainingQuantity) :
    openOf p r.rest + takenOf p r.fills ≤ openOf p makers := by
  induction h with
  | nil | spent | stop => simp [takenOf]
  | @skip rem maker makers r _ _ _ _ ih =>
    have hrest := ih fun m hm => hpos m (by simp [hm])
    have hmaker := hpos maker (by simp)
    show openOf p r.rest + takenOf p r.fills ≤ _
    rw [openOf_cons]
    split <;> omega
  | @both rem maker makers _ _ _ =>
    have hmaker := hpos maker (by simp)
    show openOf p makers + 0 ≤ _
    rw [openOf_cons]
    split <;> omega
  | @fill rem maker makers r _ _ _ _ ih =>
    have hrest := ih fun m hm => hpos m (by simp [hm])
    show openOf p r.rest + takenOf p ((maker, maker.remainingQuantity) :: r.fills) ≤ _
    rw [openOf_cons, takenOf_cons]
    simp only
    omega
  | @part rem maker makers _ _ _ =>
    show openOf p ({ maker with remainingQuantity := maker.remainingQuantity - rem } :: makers) +
      takenOf p [(maker, rem)] ≤ _
    rw [openOf_cons, openOf_cons, takenOf_cons]
    simp only [takenOf, List.filter_nil, List.map_nil, List.sum_nil]
    split <;> omega

section trades

variable {symbol : SymbolId} {taker : Order} {now : Clock} {k : Nat} {fills : List (Order × Int)}
  {p : ParticipantId}

/-- On the taker's side only the taker trades. -/
theorem traded_taker : traded symbol p taker.side (tradesOf symbol taker now k fills) =
    if taker.participantId = p then (fills.map Prod.snd).sum else 0 := by
  induction fills generalizing k with
  | nil => simp [tradesOf]
  | cons f fills ih =>
    rw [tradesOf, traded_cons, ih]
    simp only [Trade.participantOn, if_true, true_and, List.map_cons, List.sum_cons]
    split <;> simp

/-- On the other side the makers trade. -/
theorem traded_maker : traded symbol p taker.side.opposite (tradesOf symbol taker now k fills) =
    takenOf p fills := by
  induction fills generalizing k with
  | nil => rfl
  | cons f fills ih =>
    rw [tradesOf, traded_cons, ih, takenOf_cons]
    simp [Trade.participantOn, (Side.opposite_ne taker.side).symm]

end trades

/-! ## Section 3: Exposure through a call -/

namespace RefBook

section exposing

variable {nz : Prop} {r r' : RefBook} {order : Order} {now : Clock} {c : Call} {reply : Reply}

/-- The open quantity of a participant on a side of the book. -/
def openOn (r : RefBook) (participant : ParticipantId) (side : Side) : Int :=
  openOf participant (r.orders side)

theorem Sound.orders_open (h : r.Sound nz) (side : Side) :
    ∀ o ∈ r.orders side, 0 < o.remainingQuantity :=
  fun o ho => (h.placed side o ho).open_pos

theorem Sound.openOn_nonneg (h : r.Sound nz) (p : ParticipantId) (side : Side) :
    0 ≤ r.openOn p side :=
  openOf_nonneg (h.orders_open side)

/-- The call brings the given quantity more of the participant to the side:
    an accepted order, or an accepted replacement in place of the old. -/
inductive Brings (r : RefBook) (participant : ParticipantId) (side : Side) : Call → Int → Prop where
  | added {order : Order} (hok : r.rejectReason order = none)
      (hp : order.participantId = participant) (hside : order.side = side) :
      Brings r participant side (.add order) order.quantity
  | amended {id quantity price o} (hrepl : r.Replaces id quantity price o)
      (hp : o.participantId = participant) (hside : o.side = side) :
      Brings r participant side (.amend id quantity price) (quantity - o.remainingQuantity)

/-- An accepted order adds at most itself. -/
theorem Sound.execute_exposure (h : r.Sound nz) (order : Order) (now : Clock)
    (hopen : 0 ≤ order.remainingQuantity) (p : ParticipantId) (side : Side) :
    (r.execute order now).book.openOn p side +
        traded r.symbol p side (r.execute order now).trades ≤
      r.openOn p side +
        if order.participantId = p ∧ order.side = side then order.remainingQuantity else 0 := by
  have hfold := fold_folds r.policy order order.remainingQuantity
    (reachable order (r.orders order.side.opposite))
  have hpos : ∀ m ∈ reachable order (r.orders order.side.opposite), 0 < m.remainingQuantity :=
    fun m hm => (h.maker_open hm).2
  unfold openOn
  rw [execute_trades]
  rcases order.side.eq_or_opposite side with rfl | rfl
  -- its own side: what it trades is what it loses, and at most the rest joins
  · have hsum : ((r.matched order).fills.map Prod.snd).sum =
        order.remainingQuantity - (r.matched order).remaining := hfold.fills_sum
    have hrem : 0 ≤ (r.matched order).remaining := hfold.remaining_nonneg hopen
    rw [traded_taker, execute_own r order now hopen, hsum]
    by_cases hp : order.participantId = p
    · simp only [hp, and_self, if_true]
      split
      · rw [openOf_place]
        simp only [if_true]
        omega
      · omega
    · simp only [hp, false_and, if_false]
      split
      · rw [openOf_place]
        simp only [hp, if_false]
        omega
      · omega
  -- the other side: the makers left, and what was taken from them
  · have hmakers := hfold.exposure p hpos
    have hsplit : openOf p (reachable order (r.orders order.side.opposite)) +
        openOf p (beyond order (r.orders order.side.opposite)) =
          openOf p (r.orders order.side.opposite) := by
      rw [← openOf_append, Priority.split (h.priority order.side.opposite)]
    rw [traded_maker, execute_opposite r order now hopen, openOf_append,
      if_neg fun hc => Side.opposite_ne order.side hc.2.symm]
    unfold matched at *
    omega

/-- Taking an id out takes the order found off its side. -/
theorem Sound.remove_exposure (h : r.Sound nz) {id : OrderId} {o : Order}
    (hfind : r.find id = some o) (p : ParticipantId) (side : Side) :
    (r.remove id).openOn p side +
        (if o.participantId = p ∧ o.side = side then o.remainingQuantity else 0) ≤
      r.openOn p side := by
  obtain ⟨-, ho, hid⟩ := find_some hfind
  obtain ⟨side', hside'⟩ := mem_all.mp ho
  have hos := (h.placed side' o hside').side_eq
  show openOf p ((r.orders side).filter fun x => x.id ≠ id) + _ ≤ openOf p (r.orders side)
  by_cases hside : o.side = side
  · rw [hos] at hside
    subst hside
    have hle := openOf_remove_le p (fun x => decide (x.id ≠ id))
      (h.orders_open side') hside' (by simp [hid])
    simpa [hos] using hle
  · rw [if_neg fun hc => hside hc.2, add_zero]
    exact openOf_filter_le _ (h.orders_open side)

/-- **Exposure**: what a participant has open on a side after a call, and what
    it traded there in the call, is at most what it had open before and what
    the call brings. -/
theorem Effect.exposure (h : r.Effect c reply r') (hs : r.Sound nz) (hu : r.UniqueIds)
    (p : ParticipantId) (side : Side) :
    r'.openOn p side + traded r.symbol p side reply.trades ≤ r.openOn p side ∨
      ∃ n, r.Brings p side c n ∧
        r'.openOn p side + traded r.symbol p side reply.trades ≤ r.openOn p side + n := by
  cases h with
  | refused | killed | unknown | denied => exact .inl (by simp)
  | cancelled hfind | lost hfind =>
    left
    rw [traded_nil, add_zero]
    exact openOf_filter_le _ (hs.orders_open side)
  | reset =>
    left
    rw [traded_nil, add_zero]
    exact hs.openOn_nonneg p side
  | @executed order now hok =>
    have hle := hs.execute_exposure order.opened now
      (Int.le_of_lt (rejectReason_eq_none.mp hok).1) p side
    by_cases hmine : order.participantId = p ∧ order.side = side
    · right
      refine ⟨order.quantity, .added hok hmine.1 hmine.2, ?_⟩
      rw [if_pos (show order.opened.participantId = p ∧ order.opened.side = side from hmine)] at hle
      exact hle
    · left
      rw [if_neg (show ¬ (order.opened.participantId = p ∧ order.opened.side = side) from hmine)]
        at hle
      simpa using hle
  | @resized id quantity price o hfind _ hle =>
    left
    rw [traded_nil, add_zero]
    apply openOf_map_le
    · intro x
      split <;> rfl
    · intro x hx
      by_cases hid : x.id = id
      · rw [if_pos hid, hu.eq_of_find hfind (mem_all.mpr ⟨side, hx⟩) hid]
        exact hle
      · rw [if_neg hid]
  | @replaced id quantity price o now timestamp hfind hok =>
    have hle := (hs.remove id).execute_exposure
      (OrderBook.replacement o quantity price timestamp) now
      (Int.le_of_lt (rejectReason_eq_none.mp hok).1) p side
    have hremove := hs.remove_exposure hfind p side
    have hsame : (OrderBook.replacement o quantity price timestamp).participantId =
        o.participantId ∧ (OrderBook.replacement o quantity price timestamp).side = o.side ∧
        (OrderBook.replacement o quantity price timestamp).remainingQuantity = quantity :=
      ⟨rfl, rfl, rfl⟩
    rw [hsame.1, hsame.2.1, hsame.2.2] at hle
    by_cases hmine : o.participantId = p ∧ o.side = side
    · right
      refine ⟨_, .amended (hs.replaces hfind hok) hmine.1 hmine.2, ?_⟩
      rw [if_pos hmine] at hle hremove
      exact hle.trans (by omega)
    · left
      rw [if_neg hmine] at hle hremove
      exact hle.trans (by omega)

end exposing

end RefBook

end LightningLob
