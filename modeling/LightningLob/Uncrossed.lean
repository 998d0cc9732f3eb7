import LightningLob.CallEffects
import Mathlib.Order.Bounds.Defs

/-! # The book is never crossed or locked

    An order rests only after matching has taken everything its limit reaches,
    so every bid stays strictly below every ask. -/

namespace LightningLob

namespace RefBook

/-! ## Section 1: The invariant and its steps -/

/-- Every bid is strictly below every ask. -/
def Uncrossed (r : RefBook) : Prop :=
  ∀ x ∈ r.orders .buy, ∀ y ∈ r.orders .sell, x.price < y.price

section steps

variable {r r' : RefBook} {order : Order} {now : Clock}

/-- No new price, no new crossing. -/
theorem Uncrossed.of_prices (h : r.Uncrossed)
    (hp : ∀ side, ∀ o ∈ r'.orders side, ∃ m ∈ r.orders side, o.price = m.price) :
    r'.Uncrossed := by
  intro x hx y hy
  obtain ⟨mx, hmx, hpx⟩ := hp .buy x hx
  obtain ⟨my, hmy, hpy⟩ := hp .sell y hy
  rw [hpx, hpy]
  exact h mx hmx my hmy

theorem Uncrossed.remove (h : r.Uncrossed) (id : OrderId) : (r.remove id).Uncrossed :=
  h.of_prices fun _ o ho => ⟨o, List.mem_of_mem_filter ho, rfl⟩

theorem Uncrossed.resize (h : r.Uncrossed) (id : OrderId) (quantity : Int) :
    (r.resize id quantity).Uncrossed := by
  refine h.of_prices fun side o ho => ?_
  obtain ⟨m, hm, rfl⟩ := List.mem_map.mp ho
  refine ⟨m, hm, ?_⟩
  split <;> rfl

theorem Uncrossed.afterMatch (h : r.Uncrossed) (order : Order) :
    (r.afterMatch order).Uncrossed := by
  -- matching only shortens a side and lowers quantities
  refine h.of_prices fun side o ho => ?_
  obtain ⟨m, hm, heq, -, -⟩ := mem_afterMatch ho
  exact ⟨m, hm, by rw [heq]⟩

/-- Resting an order that crosses nothing. -/
theorem Uncrossed.rest (h : r.Uncrossed)
    (hp : ∀ o ∈ r.orders order.side.opposite, better order.side o.price order.price = true) :
    (r.rest order).Uncrossed := by
  intro x hx y hy
  -- either side of the pair can be the new order, never both
  rcases mem_rest.mp hx with ⟨hs, rfl⟩ | hx'
  · rcases mem_rest.mp hy with ⟨hs', -⟩ | hy'
    · rw [← hs] at hs'
      cases hs'
    · rw [← hs] at hp
      simpa [better] using hp y hy'
  · rcases mem_rest.mp hy with ⟨hs, rfl⟩ | hy'
    · rw [← hs] at hp
      simpa [better] using hp x hx'
    · exact h x hx' y hy'

/-- A maker beyond the limit of a Limit order does not cross it. -/
theorem better_of_beyond {os : List Order} {o : Order} (htype : order.type = .limit)
    (ho : o ∈ beyond order os) : better order.side o.price order.price = true := by
  have hnot := (List.mem_filter.mp ho).2
  cases hs : order.side <;> simpa [reaches, priceOk, better, htype, hs] using hnot

/-- When what is left of an order rests, matching has left nothing within its
    reach. -/
theorem afterMatch_eq_beyond (hrem : 0 < (r.matched order).remaining)
    (hk : ¬ (r.matched order).killed = true) :
    (r.afterMatch order).orders order.side.opposite =
      beyond order (r.orders order.side.opposite) := by
  have hnil : (r.matched order).rest = [] :=
    (fold_folds _ _ _ _).rest_eq_nil hrem (Bool.eq_false_iff.mpr hk)
  rw [afterMatch, setOrders_same, hnil, List.nil_append]

theorem Uncrossed.execute (h : r.Uncrossed) (hopen : 0 ≤ order.remainingQuantity) :
    (r.execute order now).book.Uncrossed := by
  rw [execute_book r order now hopen]
  split
  case isFalse => exact h.afterMatch order
  case isTrue hrests =>
    obtain ⟨hrem, hk, hr⟩ := hrests
    have htype : order.type = .limit := by
      rw [Order.restsInBook, decide_eq_true_eq] at hr
      exact hr.1
    -- what rests faces only makers beyond its limit
    refine (h.afterMatch order).rest fun o ho => ?_
    have hbeyond := afterMatch_eq_beyond hrem hk
    exact better_of_beyond htype (hbeyond ▸ ho)

/-- **Step**: no call crosses the book. -/
theorem Effect.uncrossed {c : Call} {reply : Reply} (h : r.Effect c reply r')
    (hu : r.Uncrossed) : r'.Uncrossed := by
  cases h with
  | refused | killed | unknown | denied => exact hu
  | executed hok => exact hu.execute (Int.le_of_lt (rejectReason_eq_none.mp hok).1)
  | cancelled => exact hu.remove _
  | resized => exact hu.resize _ _
  -- an amend that replaces matches again, as a new order does
  | replaced _ hok =>
    exact (hu.remove _).execute (Int.le_of_lt (rejectReason_eq_none.mp hok).1)
  | lost => exact hu.remove _
  | reset => exact fun x hx => by cases hx

end steps

end RefBook

/-! ## Section 2: Best prices -/

/-- The first order of a side has its best price. -/
theorem Priority.head_best {side : Side} {os : List Order} (h : Priority side os) {o : Order}
    (ho : os.head? = some o) : o ∈ os ∧ ∀ x ∈ os, better side x.price o.price = false := by
  cases os with
  | nil => cases ho
  | cons y os =>
    cases ho
    refine ⟨by simp, ?_⟩
    intro x hx
    rcases List.mem_cons.mp hx with rfl | hx
    · exact better_irrefl side x.price
    · exact (List.pairwise_cons.mp h).1 x hx

/-- The prices of a list of orders. -/
def prices (os : List Order) : Set Int := { p | ∃ o ∈ os, o.price = p }

/-- The head of a side in priority order has the price that no other beats. -/
theorem Priority.head_price_iff {side : Side} {os : List Order} (h : Priority side os) (p : Int) :
    os.head?.map Order.price = some p ↔
      p ∈ prices os ∧ ∀ q ∈ prices os, better side q p = false := by
  constructor
  · intro hp
    obtain ⟨o, ho, rfl⟩ := Option.map_eq_some_iff.mp hp
    obtain ⟨hmem, hbest⟩ := h.head_best ho
    refine ⟨⟨o, hmem, rfl⟩, ?_⟩
    rintro _ ⟨x, hx, rfl⟩
    exact hbest x hx
  · rintro ⟨⟨o, ho, rfl⟩, hmax⟩
    cases hhead : os.head? with
    | none =>
      rw [List.head?_eq_none_iff.mp hhead] at ho
      cases ho
    | some y =>
      -- the head is at least as good as the best price, and no better
      obtain ⟨hmem, hbest⟩ := h.head_best hhead
      have hy : better side y.price o.price = false := hmax y.price ⟨y, hmem, rfl⟩
      have ho' : better side o.price y.price = false := hbest o ho
      have heq : y.price = o.price := by
        by_contra hne
        rcases better_total side hne with hb | hb
        · rw [hy] at hb
          cases hb
        · rw [ho'] at hb
          cases hb
      rw [Option.map_some, heq]

theorem best_bid_greatest {os : List Order} (h : Priority .buy os) (p : Int) :
    os.head?.map Order.price = some p ↔ IsGreatest (prices os) p := by
  rw [h.head_price_iff]
  simp [IsGreatest, upperBounds, better]

theorem best_ask_least {os : List Order} (h : Priority .sell os) (p : Int) :
    os.head?.map Order.price = some p ↔ IsLeast (prices os) p := by
  rw [h.head_price_iff]
  simp [IsLeast, lowerBounds, better]

section best_prices

variable {S : Type} [LevelStore S] [LawfulLevelStore S] {pf : Platform} {nz : Prop}
  {b : OrderBook S} {qs : Side → List (List Nat)}

/-- The best bid is the highest resting bid price. -/
theorem BookRep.bestBid_iff (h : BookRep pf nz b qs) (p : Int) :
    b.bestBid = some p ↔ IsGreatest (prices (b.resting .buy)) p := by
  rw [OrderBook.bestBid, show b.bids = b.levels .buy from rfl, h.best_eq]
  exact best_bid_greatest (h.sound.priority .buy) p

/-- The best ask is the lowest resting ask price. -/
theorem BookRep.bestAsk_iff (h : BookRep pf nz b qs) (p : Int) :
    b.bestAsk = some p ↔ IsLeast (prices (b.resting .sell)) p := by
  rw [OrderBook.bestAsk, show b.asks = b.levels .sell from rfl, h.best_eq]
  exact best_ask_least (h.sound.priority .sell) p

end best_prices

/-! ## Section 3: Every reachable book -/

theorem Approach.Reachable.uncrossed {pf : Platform} {k : Approach} {ok : Call → Prop} {b : k.Book}
    (h : k.Reachable pf ok b) : b.reference.Uncrossed := by
  have hinv : b.Valid pf False ∧ b.reference.Uncrossed := by
    -- validity is carried along: it is what turns a call into an `Effect`
    refine Runs.Reachable.invariant
      (P := fun b : k.Book => b.Valid pf False ∧ b.reference.Uncrossed) ?_ ?_ h
    · rintro b ⟨_, _, _, _, _, hb⟩
      obtain ⟨hvalid, href⟩ := Approach.create_spec False hb
      refine ⟨hvalid, ?_⟩
      rw [href]
      exact fun x hx => by cases hx
    · rintro b ⟨c, now⟩ reply b' ⟨hvalid, hu⟩ _ hrun
      obtain ⟨hvalid', -, href⟩ := hvalid.call_eq False.elim hrun
      rw [href]
      exact ⟨hvalid', (RefBook.call_effect pf hvalid.sound c now).uncrossed hu⟩
  exact hinv.2

/-- **Never crossed or locked**: in every reachable book, whatever the calls,
    the best bid is the highest resting bid price, the best ask the lowest
    resting ask price, and when both exist the spread is positive.  This is said
    of the source while fewer than `2 ^ 32 - 1` orders rest. -/
theorem book_never_crossed (pf : Platform) (k : Approach) (b : k.Book)
    (hb : k.Reachable pf (fun _ => True) b) :
    (∀ bid ask, b.bestBid = some bid → b.bestAsk = some ask →
      bid < ask ∧ ∃ s, b.spread = some s ∧ 0 < s) ∧
    (∀ p, b.bestBid = some p ↔ IsGreatest (prices (b.resting .buy)) p) ∧
    (∀ p, b.bestAsk = some p ↔ IsLeast (prices (b.resting .sell)) p) := by
  obtain ⟨qs, hrep⟩ : b.Valid pf False := hb.valid fun _ _ hz => hz.elim
  have hbid := hrep.bestBid_iff
  have hask := hrep.bestAsk_iff
  refine ⟨?_, hbid, hask⟩
  intro bid ask hb₁ hb₂
  obtain ⟨x, hx, hxp⟩ := ((hbid bid).mp hb₁).1
  obtain ⟨y, hy, hyp⟩ := ((hask ask).mp hb₂).1
  have hlt : bid < ask := by
    rw [← hxp, ← hyp]
    exact hb.uncrossed x hx y hy
  exact ⟨hlt, ask - bid, by simp [OrderBook.spread, hb₁, hb₂], by omega⟩

/-- A bid that took the best ask, rested, and now faces the next ask. -/
theorem book_never_crossed_after_sweep :
    ∃ b : Approach.array.Book, Approach.array.Reachable .int64 (fun _ => True) b ∧
      b.bestBid = some 100 ∧ b.bestAsk = some 103 ∧ (100 : Int) < 103 ∧
      ∃ s, b.spread = some s ∧ 0 < s := by
  obtain ⟨replies, b, hrun, hbid, hask⟩ := Approach.session_ends
    (P := fun b => b.bestBid = some 100 ∧ b.bestAsk = some 103)
    (show ((Approach.array.session .int64 1 90 110 4 .none
      [(.add ⟨1, 100, 5, 0, 0, 1, 7, .sell, .limit, .gtc⟩, fun _ => 0),
       (.add ⟨2, 103, 5, 0, 0, 1, 7, .sell, .limit, .gtc⟩, fun _ => 0),
       (.add ⟨3, 100, 8, 0, 0, 1, 8, .buy, .limit, .gtc⟩, fun _ => 0)]).any _) = true by
        decide +kernel)
  have hb : Approach.array.Reachable .int64 (fun _ => True) b :=
    Approach.reachable_of_session (fun _ _ => trivial) hrun
  exact ⟨b, hb, hbid, hask, (book_never_crossed .int64 .array b hb).1 100 103 hbid hask⟩

end LightningLob
