import LightningLob.OrderBook
import Mathlib.Data.List.Basic

/-! # The reference matcher

    What a book is for, without its data structures: a side is the list of its
    resting orders in priority order, best price first and, within a price, in
    the order they joined the queue.  An incoming order is folded over the
    opposite side's list; what is left of it may join its own side.

    A price level is a maximal run of equal prices in that list, so depth
    snapshots and the FOK dry run are read off the list as well. -/

namespace LightningLob

/-! ## Section 1: The fold over the makers -/

/-- What folding a taker over a list of makers gives. -/
structure Fold where
  /-- The makers traded with, as they were before, and the quantity taken. -/
  fills : List (Order × Int)
  /-- The makers cancelled by self-trade prevention. -/
  dropped : List Order
  /-- The makers left. -/
  rest : List Order
  /-- What is left of the taker. -/
  remaining : Int
  /-- Self-trade prevention ended the fold. -/
  killed : Bool
  deriving DecidableEq, Repr

/-- Take from each maker in turn until the taker is exhausted.  A maker that
    would be a self-trade is dropped and skipped, ends the fold, or is dropped
    and ends the fold, by policy. -/
def fold (policy : SelfTradePrevention) (taker : Order) : Int → List Order → Fold
  | rem, [] => ⟨[], [], [], rem, false⟩
  | rem, maker :: makers =>
      if rem ≤ 0 then
        ⟨[], [], maker :: makers, rem, false⟩
      else if selfTrade policy taker maker then
        match policy with
        | .none | .cancelResting =>
            let r := fold policy taker rem makers
            { r with dropped := maker :: r.dropped }
        | .cancelIncoming => ⟨[], [], maker :: makers, rem, true⟩
        | .cancelBoth => ⟨[], [maker], makers, rem, true⟩
      else if maker.remainingQuantity ≤ rem then
        let r := fold policy taker (rem - maker.remainingQuantity) makers
        { r with fills := (maker, maker.remainingQuantity) :: r.fills }
      else
        ⟨[(maker, rem)], [],
          { maker with remainingQuantity := maker.remainingQuantity - rem } :: makers, 0, false⟩

/-- The trades of a fold, `k` being the number of clock readings before it. -/
def tradesOf (symbol : SymbolId) (taker : Order) (now : Nat → Timestamp) :
    Nat → List (Order × Int) → List Trade
  | _, [] => []
  | k, (maker, qty) :: fills =>
      ⟨taker.id, maker.id, symbol, maker.price, qty, now k, taker.side, taker.participantId,
        maker.participantId⟩ :: tradesOf symbol taker now (k + 1) fills

/-- The taker's limit reaches the price; a Market order reaches every price. -/
def reaches (taker : Order) (price : Int) : Bool := taker.type = .market ∨ priceOk taker price

/-- The makers a taker may trade with, in priority order. -/
def reachable (taker : Order) (makers : List Order) : List Order :=
  makers.filter fun o => reaches taker o.price

/-- The makers beyond the taker's limit. -/
def beyond (taker : Order) (makers : List Order) : List Order :=
  makers.filter fun o => ¬ reaches taker o.price

/-- Best price first: no order is behind one of a worse price. -/
def Priority (side : Side) (os : List Order) : Prop :=
  os.Pairwise fun a b => better side b.price a.price = false

/-! ## Section 2: Folds, case by case -/

/-- The fold as a relation: one constructor for each way a round can go. -/
inductive Folds (policy : SelfTradePrevention) (taker : Order) :
    Int → List Order → Fold → Prop where
  | nil {rem} : Folds policy taker rem [] ⟨[], [], [], rem, false⟩
  | spent {rem makers} (hrem : rem ≤ 0) : Folds policy taker rem makers ⟨[], [], makers, rem, false⟩
  | skip {rem maker makers r} (hrem : 0 < rem) (hself : selfTrade policy taker maker = true)
      (hpol : policy = .cancelResting) (hr : Folds policy taker rem makers r) :
      Folds policy taker rem (maker :: makers) { r with dropped := maker :: r.dropped }
  | stop {rem maker makers} (hrem : 0 < rem) (hself : selfTrade policy taker maker = true)
      (hpol : policy = .cancelIncoming) :
      Folds policy taker rem (maker :: makers) ⟨[], [], maker :: makers, rem, true⟩
  | both {rem maker makers} (hrem : 0 < rem) (hself : selfTrade policy taker maker = true)
      (hpol : policy = .cancelBoth) :
      Folds policy taker rem (maker :: makers) ⟨[], [maker], makers, rem, true⟩
  | fill {rem maker makers r} (hrem : 0 < rem) (hself : selfTrade policy taker maker = false)
      (hle : maker.remainingQuantity ≤ rem)
      (hr : Folds policy taker (rem - maker.remainingQuantity) makers r) :
      Folds policy taker rem (maker :: makers)
        { r with fills := (maker, maker.remainingQuantity) :: r.fills }
  | part {rem maker makers} (hrem : 0 < rem) (hself : selfTrade policy taker maker = false)
      (hlt : rem < maker.remainingQuantity) :
      Folds policy taker rem (maker :: makers) ⟨[(maker, rem)], [],
        { maker with remainingQuantity := maker.remainingQuantity - rem } :: makers, 0, false⟩

section fold_lemmas

variable {policy : SelfTradePrevention} {taker : Order} {rem : Int} {makers : List Order} {r : Fold}

theorem selfTrade_none (taker maker : Order) : selfTrade .none taker maker = false := by
  simp [selfTrade]

theorem fold_folds (policy : SelfTradePrevention) (taker : Order) (rem : Int)
    (makers : List Order) : Folds policy taker rem makers (fold policy taker rem makers) := by
  induction makers generalizing rem with
  | nil => exact .nil
  | cons m ms ih =>
    simp only [fold]
    by_cases hrem : rem ≤ 0
    · rw [if_pos hrem]
      exact .spent hrem
    rw [if_neg hrem]
    by_cases hself : selfTrade policy taker m = true
    · rw [if_pos hself]
      cases policy with
      | none => rw [selfTrade_none] at hself; cases hself
      | cancelResting => exact .skip (by omega) hself rfl (ih rem)
      | cancelIncoming => exact .stop (by omega) hself rfl
      | cancelBoth => exact .both (by omega) hself rfl
    rw [if_neg hself]
    by_cases hle : m.remainingQuantity ≤ rem
    · rw [if_pos hle]
      exact .fill (by omega) (by simpa using hself) hle (ih _)
    · rw [if_neg hle]
      exact .part (by omega) (by simpa using hself) (by omega)

/-- The relation is the graph of the function. -/
theorem Folds.eq_fold (h : Folds policy taker rem makers r) : r = fold policy taker rem makers := by
  induction h with
  | nil => rfl
  | @spent rem makers hrem => cases makers <;> simp [fold, hrem]
  | skip hrem hself hpol _ ih => subst hpol; simp [fold, Int.not_le.mpr hrem, hself, ih]
  | stop hrem hself hpol => subst hpol; simp [fold, Int.not_le.mpr hrem, hself]
  | both hrem hself hpol => subst hpol; simp [fold, Int.not_le.mpr hrem, hself]
  | fill hrem hself hle _ ih => simp [fold, Int.not_le.mpr hrem, hself, hle, ih]
  | part hrem hself hlt => simp [fold, Int.not_le.mpr hrem, hself, Int.not_le.mpr hlt]

/-- The fold never takes more than the taker has. -/
theorem Folds.remaining_nonneg (h : Folds policy taker rem makers r) (hrem : 0 ≤ rem) :
    0 ≤ r.remaining := by
  induction h with
  | nil | spent | stop | both => exact hrem
  | skip _ _ _ _ ih => exact ih hrem
  | fill _ _ hle _ ih => exact ih (by omega)
  | part => exact le_rfl

/-- A fold that neither exhausts nor kills the taker leaves no maker. -/
theorem Folds.rest_eq_nil (h : Folds policy taker rem makers r) (hrem : 0 < r.remaining)
    (hk : r.killed = false) : r.rest = [] := by
  induction h with
  | nil => rfl
  | spent hle => exact absurd hrem (Int.not_lt.mpr hle)
  | skip _ _ _ _ ih => exact ih hrem hk
  | stop | both => cases hk
  | fill _ _ _ _ ih => exact ih hrem hk
  | part => exact absurd hrem (Int.lt_irrefl 0)

/-- A fold that exhausts or kills the taker does not look further. -/
theorem Folds.append_done (h : Folds policy taker rem makers r)
    (hdone : r.killed = true ∨ r.remaining ≤ 0) (ys : List Order) :
    Folds policy taker rem (makers ++ ys) { r with rest := r.rest ++ ys } := by
  induction h with
  | nil =>
    rcases hdone with hk | hrem
    · cases hk
    · exact .spent hrem
  | spent hrem => exact .spent hrem
  | skip hrem hself hpol _ ih => exact .skip hrem hself hpol (ih hdone)
  | stop hrem hself hpol => exact .stop hrem hself hpol
  | both hrem hself hpol => exact .both hrem hself hpol
  | fill hrem hself hle _ ih => exact .fill hrem hself hle (ih hdone)
  | part hrem hself hlt => exact .part hrem hself hlt

/-- A fold that neither exhausts nor kills the taker goes on with the makers
    that follow. -/
theorem Folds.append_more (h : Folds policy taker rem makers r) (hk : r.killed = false)
    (hrem : 0 < r.remaining) {ys : List Order} {r' : Fold}
    (h' : Folds policy taker r.remaining ys r') :
    Folds policy taker rem (makers ++ ys)
      { r' with fills := r.fills ++ r'.fills, dropped := r.dropped ++ r'.dropped } := by
  induction h with
  | nil => exact h'
  | spent hle => exact absurd hrem (Int.not_lt.mpr hle)
  | skip hpos hself hpol _ ih => exact .skip hpos hself hpol (ih hk hrem h')
  | stop | both => cases hk
  | fill hpos hself hle _ ih => exact .fill hpos hself hle (ih hk hrem h')
  | part => exact absurd hrem (Int.lt_irrefl 0)

/-- The fold only looks at whose order it is. -/
theorem fold_congr (policy : SelfTradePrevention) {taker taker' : Order}
    (h : taker'.participantId = taker.participantId) (rem : Int) (makers : List Order) :
    fold policy taker' rem makers = fold policy taker rem makers := by
  have hself : ∀ m, selfTrade policy taker' m = selfTrade policy taker m := by
    intro m
    unfold selfTrade
    rw [h]
  induction makers generalizing rem with
  | nil => rfl
  | cons m ms ih => simp only [fold, hself, ih]

/-- How much of the taker is open does not matter to the fold. -/
@[simp] theorem fold_opened (policy : SelfTradePrevention) (taker : Order) (rem : Int)
    (makers : List Order) : fold policy taker.opened rem makers = fold policy taker rem makers :=
  fold_congr policy (show taker.opened.participantId = taker.participantId from rfl) rem makers

/-- `o` is the order `m` with, at most, quantity taken off. -/
structure Leaves (m o : Order) : Prop where
  eq : o = { m with remainingQuantity := o.remainingQuantity }
  open_pos : 0 < m.remainingQuantity → 0 < o.remainingQuantity
  le : o.remainingQuantity ≤ m.remainingQuantity

theorem Leaves.refl (o : Order) : Leaves o o := ⟨rfl, id, le_rfl⟩

/-- A maker left is one of the makers with, at most, quantity taken off. -/
theorem Folds.rest_spec (h : Folds policy taker rem makers r) {o : Order} (ho : o ∈ r.rest) :
    ∃ m ∈ makers, Leaves m o := by
  have same : ∀ {l : List Order}, o ∈ l → ∃ m ∈ l, Leaves m o := fun hl => ⟨o, hl, .refl o⟩
  have later : ∀ {m : Order} {l : List Order}, (∃ x ∈ l, Leaves x o) →
      ∃ x ∈ m :: l, Leaves x o := by
    rintro m l ⟨x, hx, hspec⟩
    exact ⟨x, List.mem_cons_of_mem m hx, hspec⟩
  induction h with
  | nil => cases ho
  | spent | stop => exact same ho
  | skip _ _ _ _ ih => exact later (ih ho)
  | both => exact later (same ho)
  | fill _ _ _ _ ih => exact later (ih ho)
  | @part rem m ms hrem _ hlt =>
    rcases List.mem_cons.mp ho with rfl | ho
    · exact ⟨m, by simp, rfl, fun _ => by simpa using hlt,
        Int.sub_le_self _ (Int.le_of_lt hrem)⟩
    · exact later (same ho)

theorem tradesOf_append (symbol : SymbolId) (now : Nat → Timestamp) (k : Nat)
    (xs ys : List (Order × Int)) :
    tradesOf symbol taker now k (xs ++ ys) =
      tradesOf symbol taker now k xs ++ tradesOf symbol taker now (k + xs.length) ys := by
  induction xs generalizing k with
  | nil => simp [tradesOf]
  | cons x xs ih =>
    obtain ⟨m, q⟩ := x
    simp only [List.cons_append, tradesOf, ih, List.length_cons]
    rw [show k + 1 + xs.length = k + (xs.length + 1) by omega]

@[simp] theorem tradesOf_opened (symbol : SymbolId) (taker : Order) (now : Nat → Timestamp)
    (k : Nat) (fills : List (Order × Int)) :
    tradesOf symbol taker.opened now k fills = tradesOf symbol taker now k fills := by
  induction fills generalizing k with
  | nil => rfl
  | cons x xs ih =>
    simp only [tradesOf, ih]
    rfl

@[simp] theorem tradesOf_length (symbol : SymbolId) (now : Nat → Timestamp) (k : Nat)
    (xs : List (Order × Int)) : (tradesOf symbol taker now k xs).length = xs.length := by
  induction xs generalizing k with
  | nil => rfl
  | cons x xs ih => simp [tradesOf, ih]

/-- A better price is reached whenever a worse one is. -/
theorem reaches_of_not_better {a b : Int} (h : better taker.side.opposite b a = false)
    (hb : reaches taker b = true) : reaches taker a = true := by
  simp only [reaches, decide_eq_true_eq] at hb ⊢
  refine hb.imp_right fun hok => ?_
  unfold priceOk at *
  cases hs : taker.side <;>
    simp only [hs, Side.opposite, better, decide_eq_true_eq, decide_eq_false_iff_not] at * <;> omega

/-- In a list in priority order the reachable makers come first. -/
theorem Priority.split {os : List Order} (h : Priority taker.side.opposite os) :
    reachable taker os ++ beyond taker os = os := by
  induction os with
  | nil => rfl
  | cons o os ih =>
    obtain ⟨ho, hos⟩ := List.pairwise_cons.mp h
    by_cases hr : reaches taker o.price = true
    · simpa [reachable, beyond, hr] using ih hos
    · have hnone : reachable taker os = [] := by
        rw [reachable, List.filter_eq_nil_iff]
        intro x hx hxr
        exact hr (reaches_of_not_better (ho x hx) hxr)
      have hall := ih hos
      rw [hnone, List.nil_append] at hall
      have hcons : reachable taker (o :: os) = [] := by
        rw [← hnone]; simp [reachable, hr]
      rw [hcons, List.nil_append]
      simp only [beyond] at hall ⊢
      rw [List.filter_cons_of_pos (by simpa using hr), hall]

end fold_lemmas

end LightningLob
