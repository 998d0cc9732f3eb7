import LightningLob.CallEffects
import Mathlib.Algebra.BigOperators.Group.List.Basic

/-! # What a fold does to each maker

    Folding a taker over makers with distinct ids, every maker is accounted
    for: it is dropped, it is traded for all it had open, or it is left with
    what it had less what was taken from it.  The trades of the fold carry the
    same numbers. -/

namespace LightningLob

/-! ## Section 1: Quantities taken -/

/-- The quantity taken from the makers with an id. -/
def taken (id : OrderId) (fills : List (Order × Int)) : Int :=
  ((fills.filter fun f => f.1.id = id).map Prod.snd).sum

@[simp] theorem taken_nil (id : OrderId) : taken id [] = 0 := rfl

theorem taken_cons (id : OrderId) (f : Order × Int) (fills : List (Order × Int)) :
    taken id (f :: fills) = (if f.1.id = id then f.2 else 0) + taken id fills := by
  by_cases h : f.1.id = id <;> simp [taken, h]

theorem taken_eq_zero {id : OrderId} {fills : List (Order × Int)} (h : ∀ f ∈ fills, f.1.id ≠ id) :
    taken id fills = 0 := by
  have : fills.filter (fun f => f.1.id = id) = [] := by simpa [List.filter_eq_nil_iff] using h
  rw [taken, this]
  rfl

section fold_accounting

variable {policy : SelfTradePrevention} {taker : Order} {rem : Int} {makers : List Order}
  {r : Fold}

/-- What a fold takes is what the taker loses. -/
theorem Folds.fills_sum (h : Folds policy taker rem makers r) :
    (r.fills.map Prod.snd).sum = rem - r.remaining := by
  induction h with
  | nil | spent | stop | both => simp
  | skip _ _ _ _ ih => exact ih
  | fill _ _ _ _ ih =>
    simp only [List.map_cons, List.sum_cons, ih]
    omega
  | part => simp

/-- A fill is with a maker that is no self-trade, for a positive quantity. -/
theorem Folds.fill_spec (h : Folds policy taker rem makers r)
    (hpos : ∀ m ∈ makers, 0 < m.remainingQuantity) {f : Order × Int} (hf : f ∈ r.fills) :
    f.1 ∈ makers ∧ 0 < f.2 ∧ selfTrade policy taker f.1 = false := by
  induction h with
  | nil | spent | stop | both => cases hf
  | skip _ _ _ _ ih =>
    obtain ⟨h₁, h₂⟩ := ih (fun m hm => hpos m (by simp [hm])) hf
    exact ⟨by simp [h₁], h₂⟩
  | @fill rem maker makers r _ hself _ _ ih =>
    rcases List.mem_cons.mp hf with rfl | hf
    · exact ⟨by simp, hpos maker (by simp), hself⟩
    · obtain ⟨h₁, h₂⟩ := ih (fun m hm => hpos m (by simp [hm])) hf
      exact ⟨by simp [h₁], h₂⟩
  | part hrem hself _ =>
    rw [List.mem_singleton.mp hf]
    exact ⟨by simp, hrem, hself⟩

/-- A dropped maker is a self-trade under a policy that cancels resting
    orders. -/
theorem Folds.dropped_spec (h : Folds policy taker rem makers r) {m : Order}
    (hm : m ∈ r.dropped) : selfTrade policy taker m = true ∧
      (policy = .cancelResting ∨ policy = .cancelBoth) := by
  induction h with
  | nil | spent | stop | part => cases hm
  | skip _ hself hpol _ ih =>
    rcases List.mem_cons.mp hm with rfl | hm
    · exact ⟨hself, Or.inl hpol⟩
    · exact ih hm
  | both _ hself hpol =>
    rw [List.mem_singleton.mp hm]
    exact ⟨hself, Or.inr hpol⟩
  | fill _ _ _ _ ih => exact ih hm

/-- CancelBoth drops at most one maker, and then the taker is killed. -/
theorem Folds.dropped_both (h : Folds policy taker rem makers r) (hpol : policy = .cancelBoth) :
    r.dropped = [] ∨ ∃ m, r.dropped = [m] ∧ r.killed = true := by
  induction h with
  | nil | spent | stop | part => exact Or.inl rfl
  | skip _ _ hpol' _ _ => rw [hpol] at hpol'; cases hpol'
  | both => exact Or.inr ⟨_, rfl, rfl⟩
  | fill _ _ _ _ ih => exact ih

/-- Nothing is taken under an id that no maker has. -/
theorem Folds.taken_other (h : Folds policy taker rem makers r)
    (hpos : ∀ m ∈ makers, 0 < m.remainingQuantity) {id : OrderId} (hid : ∀ m ∈ makers, m.id ≠ id) :
    taken id r.fills = 0 :=
  taken_eq_zero fun _ hf => hid _ (h.fill_spec hpos hf).1

/-- An order with quantity taken off. -/
def Order.less (o : Order) (quantity : Int) : Order :=
  { o with remainingQuantity := o.remainingQuantity - quantity }

@[simp] theorem Order.less_zero (o : Order) : o.less 0 = o := by
  simp [Order.less]

/-- Every maker is dropped, taken whole, or left with the rest; and what is left
    is one of the makers. -/
structure Fold.Accounts (makers : List Order) (r : Fold) : Prop where
  fate : ∀ m ∈ makers, m ∈ r.dropped ∨ taken m.id r.fills = m.remainingQuantity ∨
    m.less (taken m.id r.fills) ∈ r.rest
  left : ∀ o ∈ r.rest, ∃ m ∈ makers, o = m.less (taken m.id r.fills)

/-- Without a fill the makers left are the makers themselves. -/
theorem Fold.Accounts.untouched (makers : List Order) (rem : Int) (killed : Bool) :
    Fold.Accounts makers ⟨[], [], makers, rem, killed⟩ where
  fate := fun m hm => .inr (.inr (by simpa using hm))
  left := fun o ho => ⟨o, ho, by simp⟩

/-- The dropped maker is the first, the others are as before. -/
theorem Fold.Accounts.drop (h : r.Accounts makers) (maker : Order) :
    Fold.Accounts (maker :: makers) { r with dropped := maker :: r.dropped } := by
  constructor
  · intro m hm
    rcases List.mem_cons.mp hm with rfl | hm
    · exact .inl (by simp)
    · exact (h.fate m hm).imp_left (List.mem_cons_of_mem maker)
  · intro o ho
    obtain ⟨m, hm, heq⟩ := h.left o ho
    exact ⟨m, by simp [hm], heq⟩

/-- The first maker is taken whole, and, the ids being distinct, the fill is not
    charged to a later one. -/
theorem Fold.Accounts.fill (h : r.Accounts makers) {maker : Order}
    (hnot : taken maker.id r.fills = 0) (hne : ∀ m ∈ makers, maker.id ≠ m.id) :
    Fold.Accounts (maker :: makers)
      { r with fills := (maker, maker.remainingQuantity) :: r.fills } := by
  have hlater : ∀ m ∈ makers,
      taken m.id ((maker, maker.remainingQuantity) :: r.fills) = taken m.id r.fills := by
    intro m hm
    rw [taken_cons, if_neg (hne m hm), Int.zero_add]
  constructor
  · intro m hm
    rcases List.mem_cons.mp hm with rfl | hm
    · refine .inr (.inl ?_)
      show taken m.id ((m, m.remainingQuantity) :: r.fills) = _
      rw [taken_cons, if_pos rfl, hnot, Int.add_zero]
    · have := h.fate m hm
      rw [← hlater m hm] at this
      exact this
  · intro o ho
    obtain ⟨m, hm, heq⟩ := h.left o ho
    rw [← hlater m hm] at heq
    exact ⟨m, by simp [hm], heq⟩

/-- Only the first maker is traded with, and for less than it had. -/
theorem Fold.Accounts.part {maker : Order} (rem : Int) (hne : ∀ m ∈ makers, maker.id ≠ m.id) :
    Fold.Accounts (maker :: makers) ⟨[(maker, rem)], [], maker.less rem :: makers, 0, false⟩ := by
  have htaken : taken maker.id [(maker, rem)] = rem := by simp [taken_cons]
  have hlater : ∀ m ∈ makers, taken m.id [(maker, rem)] = 0 := by
    intro m hm
    rw [taken_cons, if_neg (hne m hm)]
    simp
  constructor
  · intro m hm
    refine .inr (.inr ?_)
    rcases List.mem_cons.mp hm with rfl | hm
    · rw [htaken]
      exact List.mem_cons_self
    · rw [hlater m hm]
      simp [hm]
  · intro o ho
    rcases List.mem_cons.mp ho with rfl | ho
    · exact ⟨maker, by simp, by rw [htaken]⟩
    · exact ⟨o, by simp [ho], by rw [hlater o ho]; simp⟩

/-- **Accounting**: a fold over makers with distinct ids accounts for each. -/
theorem Folds.account (h : Folds policy taker rem makers r)
    (hpos : ∀ m ∈ makers, 0 < m.remainingQuantity) (hids : (makers.map Order.id).Nodup) :
    r.Accounts makers := by
  induction h with
  | nil | spent | stop => exact .untouched _ _ _
  | skip _ _ _ _ ih =>
    exact (ih (fun m hm => hpos m (by simp [hm])) (List.nodup_cons.mp hids).2).drop _
  | both => exact (Fold.Accounts.untouched _ _ _).drop _
  | @fill rem maker makers r _ _ _ hr ih =>
    obtain ⟨hfresh, hids'⟩ := List.nodup_cons.mp hids
    have hpos' : ∀ m ∈ makers, 0 < m.remainingQuantity := fun m hm => hpos m (by simp [hm])
    have hne : ∀ m ∈ makers, maker.id ≠ m.id := fun m hm he =>
      hfresh (by rw [he]; exact List.mem_map_of_mem hm)
    exact (ih hpos' hids').fill (hr.taken_other hpos' fun m hm => (hne m hm).symm) hne
  | part =>
    obtain ⟨hfresh, -⟩ := List.nodup_cons.mp hids
    exact .part _ fun m hm he => hfresh (by rw [he]; exact List.mem_map_of_mem hm)

end fold_accounting

/-! ## Section 2: The trades of a fold -/

/-- The quantity traded with an order as the maker. -/
def makerVolume (id : OrderId) (trades : List Trade) : Int :=
  ((trades.filter fun t => t.makerOrderId = id).map Trade.quantity).sum

/-- The quantity of the trades that name an order, on either side. -/
def namedVolume (id : OrderId) (trades : List Trade) : Int :=
  ((trades.filter fun t => t.makerOrderId = id ∨ t.takerOrderId = id).map Trade.quantity).sum

theorem makerVolume_cons (id : OrderId) (t : Trade) (ts : List Trade) :
    makerVolume id (t :: ts) = (if t.makerOrderId = id then t.quantity else 0) +
      makerVolume id ts := by
  by_cases h : t.makerOrderId = id <;> simp [makerVolume, h]

theorem namedVolume_cons (id : OrderId) (t : Trade) (ts : List Trade) :
    namedVolume id (t :: ts) =
      (if t.makerOrderId = id ∨ t.takerOrderId = id then t.quantity else 0) +
        namedVolume id ts := by
  unfold namedVolume
  by_cases h : t.makerOrderId = id ∨ t.takerOrderId = id
  · rw [List.filter_cons_of_pos (by simpa using h), if_pos h]
    simp
  · rw [List.filter_cons_of_neg (by simpa using h), if_neg h]
    simp

section trades

variable {symbol : SymbolId} {taker : Order} {now : Clock} {k : Nat} {fills : List (Order × Int)}

theorem makerVolume_tradesOf (id : OrderId) :
    makerVolume id (tradesOf symbol taker now k fills) = taken id fills := by
  induction fills generalizing k with
  | nil => rfl
  | cons f fills ih => rw [tradesOf, makerVolume_cons, ih, taken_cons]

/-- Every trade names the taker. -/
theorem namedVolume_taker :
    namedVolume taker.id (tradesOf symbol taker now k fills) = (fills.map Prod.snd).sum := by
  induction fills generalizing k with
  | nil => rfl
  | cons f fills ih => simp [tradesOf, namedVolume_cons, ih]

/-- Another id is named only as a maker. -/
theorem namedVolume_other {id : OrderId} (h : taker.id ≠ id) :
    namedVolume id (tradesOf symbol taker now k fills) = taken id fills := by
  induction fills generalizing k with
  | nil => rfl
  | cons f fills ih => simp [tradesOf, namedVolume_cons, ih, taken_cons, h]

theorem mem_tradesOf {t : Trade} (ht : t ∈ tradesOf symbol taker now k fills) :
    ∃ f ∈ fills, ∃ i, t = ⟨taker.id, f.1.id, symbol, f.1.price, f.2, now i, taker.side,
      taker.participantId, f.1.participantId⟩ := by
  induction fills generalizing k with
  | nil => cases ht
  | cons f fills ih =>
    rcases List.mem_cons.mp ht with rfl | ht
    · exact ⟨f, by simp, k, rfl⟩
    · obtain ⟨g, hg, hspec⟩ := ih ht
      exact ⟨g, by simp [hg], hspec⟩

end trades

/-! ## Section 3: The resting orders around an accepted order -/

namespace RefBook

section executing

variable {r : RefBook} {order : Order} {now : Clock}

theorem orders_sublist_all (r : RefBook) (side : Side) : (r.orders side).Sublist r.all := by
  cases side with
  | buy => exact List.sublist_append_left _ _
  | sell => exact List.sublist_append_right _ _

/-- With real ids, an id is an order. -/
theorem Sound.eq_of_id (h : r.Sound True) {a b : Order} (ha : a ∈ r.all) (hb : b ∈ r.all)
    (hid : a.id = b.id) : a = b :=
  List.inj_on_of_nodup_map (h.ids trivial).1 ha hb hid

/-- The makers of a match are resting orders. -/
theorem Sound.maker_open {nz : Prop} (h : r.Sound nz) {m : Order}
    (hm : m ∈ reachable order (r.orders order.side.opposite)) :
    m ∈ r.all ∧ 0 < m.remainingQuantity := by
  have hside := List.mem_of_mem_filter hm
  exact ⟨mem_all.mpr ⟨_, hside⟩, (h.placed _ m hside).open_pos⟩

/-- The makers of a match. -/
theorem Sound.makers (h : r.Sound True) (order : Order) :
    (∀ m ∈ reachable order (r.orders order.side.opposite), m ∈ r.all ∧ 0 < m.remainingQuantity) ∧
      ((reachable order (r.orders order.side.opposite)).map Order.id).Nodup := by
  have hsub : (reachable order (r.orders order.side.opposite)).Sublist r.all :=
    List.filter_sublist.trans (orders_sublist_all r _)
  exact ⟨fun m hm => h.maker_open hm, (h.ids trivial).1.sublist (hsub.map _)⟩

/-- An order that is no maker is not named by the trades of another taker. -/
theorem Sound.unnamed (h : r.Sound True) {o : Order} (ho : o ∈ r.all) (hid : o.id ≠ order.id)
    (hno : o ∉ reachable order (r.orders order.side.opposite)) :
    namedVolume o.id (r.execute order now).trades = 0 := by
  rw [execute_trades, namedVolume_other hid.symm]
  refine (fold_folds _ _ _ _).taken_other (fun m hm => ((h.makers order).1 m hm).2) ?_
  intro m hm he
  rw [h.eq_of_id ((h.makers order).1 m hm).1 ho he] at hm
  exact hno hm

/-- **After an accepted order**, every order that rested before was dropped,
    was traded whole, or still rests with what the trades left of it. -/
theorem Sound.execute_account (h : r.Sound True) (hopen : 0 ≤ order.remainingQuantity)
    {o : Order} (ho : o ∈ r.all) (hid : o.id ≠ order.id) :
    o ∈ (r.matched order).dropped ∨
      makerVolume o.id (r.execute order now).trades = o.remainingQuantity ∨
      o.less (namedVolume o.id (r.execute order now).trades) ∈ (r.execute order now).book.all := by
  obtain ⟨side, hside⟩ := mem_all.mp ho
  by_cases hm : o ∈ reachable order (r.orders order.side.opposite)
  -- a maker within reach: as the fold accounts for it
  · have hacc := ((fold_folds r.policy order order.remainingQuantity _).account
      (fun m hm => ((h.makers order).1 m hm).2) (h.makers order).2).1 o hm
    rw [execute_trades, makerVolume_tradesOf, namedVolume_other hid.symm]
    refine hacc.imp_right (Or.imp_right fun hrest => ?_)
    refine mem_all.mpr ⟨order.side.opposite, ?_⟩
    rw [execute_opposite r order now hopen]
    exact List.mem_append_left _ hrest
  -- any other order keeps its place, on either side
  · right; right
    rw [h.unnamed ho hid hm, Order.less_zero]
    refine mem_all.mpr ⟨side, ?_⟩
    rcases order.side.eq_or_opposite side with rfl | rfl
    · rw [execute_own r order now hopen]
      split
      · exact mem_place.mpr (Or.inr hside)
      · exact hside
    · rw [execute_opposite r order now hopen]
      refine List.mem_append_right _ (List.mem_filter.mpr ⟨hside, ?_⟩)
      simpa [reachable, hside] using hm

/-- **Where the orders come from**: after an accepted order, an order rests
    because it is what the trades left of that order or of one that rested
    before. -/
theorem Sound.execute_origin (h : r.Sound True) (hopen : 0 ≤ order.remainingQuantity)
    (hfresh : ∀ o ∈ r.all, o.id ≠ order.id) {o' : Order}
    (ho' : o' ∈ (r.execute order now).book.all) :
    o' = order.less (namedVolume order.id (r.execute order now).trades) ∧
        (r.matched order).killed = false ∨
      ∃ o ∈ r.all, o' = o.less (namedVolume o.id (r.execute order now).trades) := by
  have hkeep : ∀ o ∈ r.all, o ∉ reachable order (r.orders order.side.opposite) →
      ∃ x ∈ r.all, o = x.less (namedVolume x.id (r.execute order now).trades) := by
    intro o ho hno
    exact ⟨o, ho, by rw [h.unnamed ho (hfresh o ho) hno, Order.less_zero]⟩
  obtain ⟨side, hside⟩ := mem_all.mp ho'
  rcases order.side.eq_or_opposite side with rfl | rfl
  -- on the order's own side: the order itself, or one that rested there
  · have hown : ∀ o ∈ r.orders order.side, o ∉ reachable order (r.orders order.side.opposite) := by
      intro o ho hm
      have h₁ := (h.placed _ o ho).side_eq
      have h₂ := (h.placed _ o (List.mem_of_mem_filter hm)).side_eq
      exact Side.opposite_ne order.side (h₂.symm.trans h₁)
    rw [execute_own r order now hopen] at hside
    split at hside
    · next hrests =>
      rcases mem_place.mp hside with rfl | hside
      · left
        -- every trade names the taker, so its volume is what the taker lost
        have hsum : ((r.matched order).fills.map Prod.snd).sum =
            order.remainingQuantity - (r.matched order).remaining := (fold_folds _ _ _ _).fills_sum
        rw [execute_trades, namedVolume_taker, hsum]
        refine ⟨?_, Bool.eq_false_iff.mpr hrests.2.1⟩
        simp only [Order.less]
        congr 1
        omega
      · exact Or.inr (hkeep o' (mem_all.mpr ⟨_, hside⟩) (hown o' hside))
    · exact Or.inr (hkeep o' (mem_all.mpr ⟨_, hside⟩) (hown o' hside))
  · right
    -- on the opposite side: what the fold left, or an order beyond the limit
    rw [execute_opposite r order now hopen, List.mem_append] at hside
    rcases hside with hrest | hbeyond
    · obtain ⟨m, hm, heq⟩ := ((fold_folds r.policy order order.remainingQuantity _).account
        (fun m hm => ((h.makers order).1 m hm).2) (h.makers order).2).2 o' hrest
      have hmall := ((h.makers order).1 m hm).1
      refine ⟨m, hmall, ?_⟩
      rw [execute_trades, namedVolume_other (hfresh m hmall).symm]
      exact heq
    · refine hkeep o' (mem_all.mpr ⟨_, List.mem_of_mem_filter hbeyond⟩) ?_
      intro hm
      have h₁ := (List.mem_filter.mp hbeyond).2
      have h₂ := (List.mem_filter.mp hm).2
      simp [h₂] at h₁

/-- An accepted order has an id of its own. -/
theorem fresh_of_accepted (hok : r.rejectReason order = none)
    (hne : order.id ≠ kInvalidOrderId) : ∀ o ∈ r.all, o.id ≠ order.id :=
  (find_eq_none.mp (rejectReason_eq_none.mp hok).2.2).resolve_left hne

end executing

end RefBook

end LightningLob
