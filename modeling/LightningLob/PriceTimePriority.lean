import LightningLob.CallEffects

/-! # Price-time priority

    Whatever a book has been through, an accepted order is matched like the
    reference fold: makers in order of price and then of time, each at its own
    price, until the order is exhausted or self-trade prevention ends it. -/

namespace LightningLob

/-- **Price-time priority**: from every reachable book, an order that is neither
    rejected nor FOK-killed trades exactly as the fold over the makers its limit
    reaches, in priority order; the makers left keep their places, and what is
    left of the order joins the tail of its price if it may rest.  This is said
    of the source while fewer than `2 ^ 32 - 1` orders rest. -/
theorem addOrder_matches_price_time_fold (pf : Platform) (k : Approach) (b : k.Book)
    (hb : k.Reachable pf Call.NonZero b) (order : Order) (now : Clock)
    (hreject : b.rejectReason order = some none) (hfok : b.fokKilled pf order = some false) :
    ∃ out, b.addOrder pf order now = some out ∧
      Priority order.side.opposite (b.resting order.side.opposite) ∧
      let f := fold b.stpPolicy order order.quantity
        (reachable order (b.resting order.side.opposite))
      out.trades = tradesOf b.symbol order now 0 f.fills ∧
      out.book.resting order.side.opposite =
        f.rest ++ beyond order (b.resting order.side.opposite) ∧
      out.book.resting order.side =
        if 0 < f.remaining ∧ ¬ f.killed ∧ order.restsInBook then
          place { order with remainingQuantity := f.remaining } (b.resting order.side)
        else
          b.resting order.side := by
  obtain ⟨qs, hrep⟩ : b.Valid pf False := hb.valid fun _ _ hz => hz.elim
  obtain ⟨out, hrun, href⟩ := hrep.addOrder_spec order now False.elim
  rw [hrep.rejectReason_eq] at hreject
  rw [hrep.fokKilled_eq] at hfok
  have hreject' := Option.some.inj hreject
  have hqty := (RefBook.rejectReason_eq_none.mp hreject').1
  rw [RefBook.addOrder_accepted hreject' (Option.some.inj hfok)] at href
  -- `add_order` opens the order first: remaining_quantity := quantity
  have hm := RefBook.matched_opened b.reference order
  have hopen : 0 ≤ order.opened.remainingQuantity := Int.le_of_lt hqty
  refine ⟨out, hrun, hrep.sound.priority _, ?_, ?_, ?_⟩
  · rw [href.trades, RefBook.execute_trades, hm, tradesOf_opened]
    rfl
  · have hopp := RefBook.execute_opposite b.reference order.opened now hopen
    rw [← href.book, hm] at hopp
    exact hopp
  · have hown := RefBook.execute_own b.reference order.opened now hopen
    rw [← href.book, hm] at hown
    exact hown

/-- A bid that sweeps two ask levels, past an ask of its own participant,
    and rests. -/
theorem addOrder_matches_price_time_fold_sweep :
    ∃ (b : Approach.vector.Book) (out : Outcome Approach.vector.Levels),
      Approach.vector.Reachable .int64 Call.NonZero b ∧
      b.addOrder .int64 ⟨4, 101, 12, 0, 0, 1, 9, .buy, .limit, .gtc⟩ (fun _ => 7) = some out ∧
      (out.trades.map fun t => (t.makerOrderId, t.price, t.quantity)) =
        [(1, 100, 5), (3, 101, 5)] ∧
      out.book.resting .sell = [] ∧
      out.book.resting .buy = [⟨4, 101, 12, 2, 0, 1, 9, .buy, .limit, .gtc⟩] := by
  let taker : Order := ⟨4, 101, 12, 0, 0, 1, 9, .buy, .limit, .gtc⟩
  let asks : List Order :=
    [⟨1, 100, 5, 0, 0, 1, 7, .sell, .limit, .gtc⟩, ⟨2, 100, 5, 0, 0, 1, 9, .sell, .limit, .gtc⟩,
      ⟨3, 101, 5, 0, 0, 1, 8, .sell, .limit, .gtc⟩]
  obtain ⟨replies, b, hrun, hreject, hfok, hpolicy, hsymbol, hsell, hbuy⟩ := Approach.session_ends
    (P := fun b => b.rejectReason taker = some none ∧ b.fokKilled .int64 taker = some false ∧
      b.stpPolicy = .cancelResting ∧ b.symbol = 1 ∧ b.resting .sell = asks.map Order.opened ∧
      b.resting .buy = [])
    (show ((Approach.vector.session .int64 1 90 110 4 .cancelResting
      (asks.map fun o => (.add o, fun _ => 0))).any _) = true by decide +kernel)
  have hb : Approach.vector.Reachable .int64 Call.NonZero b :=
    Approach.reachable_of_session (by decide) hrun
  obtain ⟨out, hout, -, htrades, hopp, hown⟩ :=
    addOrder_matches_price_time_fold .int64 .vector b hb taker (fun _ => 7) hreject hfok
  rw [hpolicy, show taker.side.opposite = .sell from rfl, hsell] at htrades hopp hown
  rw [show taker.side = .buy from rfl, hbuy] at hown
  refine ⟨b, out, hb, hout, ?_, ?_, ?_⟩
  · rw [htrades, hsymbol]
    decide +kernel
  · rw [hopp]
    decide +kernel
  · rw [hown]
    decide +kernel

end LightningLob
