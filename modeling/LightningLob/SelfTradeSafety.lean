import LightningLob.Accounting

/-! # Self-trade safety and no silent loss

    Over every run: with self-trade prevention on, no participant trades with
    itself; and an order leaves the book only because it was traded whole, was
    named by the call, was reset, or was dropped by a policy that says so. -/

namespace LightningLob

/-! ## Section 1: The statement for one call -/

/-- The order rested before and does not after. -/
def RefBook.Lost (r r' : RefBook) (o : Order) : Prop :=
  o ∈ r.all ∧ ∀ x ∈ r'.all, x.id ≠ o.id

/-- The call accounts for the order's leaving: it was traded for all it had
    open, or the call named it, or everything was reset. -/
def Explained (c : Call) (reply : Reply) (o : Order) : Prop :=
  makerVolume o.id reply.trades = o.remainingQuantity ∨ c = .cancel o.id ∨
    (∃ quantity price, c = .amend o.id quantity price) ∨ c = .reset

/-- The order a call matches: the one added, or the one replaced. -/
def RefBook.takerOf (r : RefBook) : Call → Option Order
  | .add order => some order
  | .amend id _ _ => r.find id
  | _ => none

/-- What a call may do to the orders of the book. -/
structure RefBook.SafeStep (r : RefBook) (c : Call) (reply : Reply) (r' : RefBook) : Prop where
  no_self_trade : r.policy ≠ .none → ∀ t ∈ reply.trades,
    ¬ (t.takerParticipantId = t.makerParticipantId ∧ t.takerParticipantId ≠ kNoParticipant)
  /-- Dropped in any other way only by policy, and by the same participant. -/
  dropped : ∀ o, r.Lost r' o → ¬ Explained c reply o →
    (r.policy = .cancelResting ∨ r.policy = .cancelBoth) ∧
      ∃ taker, r.takerOf c = some taker ∧ taker.participantId = o.participantId ∧
        o.participantId ≠ kNoParticipant
  /-- CancelBoth drops one order at most, and then nothing of the taker rests. -/
  both : r.policy = .cancelBoth → ∀ o, r.Lost r' o → ¬ Explained c reply o →
    (∀ x, r.Lost r' x → ¬ Explained c reply x → x = o) ∧
      ∀ taker, r.takerOf c = some taker → ∀ x ∈ r'.all, x.id ≠ taker.id

/-! ## Section 2: The ways a call can go -/

namespace RefBook

section steps

variable {r r' : RefBook} {order : Order} {now : Clock}

/-- Taking an id out loses only its orders. -/
theorem lost_remove {id : OrderId} {o : Order} (h : r.Lost (r.remove id) o) : o.id = id := by
  by_contra hne
  exact h.2 o (mem_remove.mpr ⟨h.1, hne⟩) rfl

/-- A call that keeps the ids loses nothing. -/
theorem SafeStep.of_kept {c : Call} {answer : Answer}
    (hkept : ∀ o ∈ r.all, ∃ x ∈ r'.all, x.id = o.id) : SafeStep r c ⟨answer, []⟩ r' := by
  have hnone : ∀ o, ¬ r.Lost r' o := by
    rintro o ⟨ho, hlost⟩
    obtain ⟨x, hx, hid⟩ := hkept o ho
    exact hlost x hx hid
  exact ⟨fun _ t ht => (by cases ht), fun o ho => (hnone o ho).elim,
    fun _ o ho => (hnone o ho).elim⟩

/-- A call without trades that accounts for every order it loses. -/
theorem SafeStep.of_explained {c : Call} {answer : Answer}
    (hexp : ∀ o, r.Lost r' o → Explained c ⟨answer, []⟩ o) : SafeStep r c ⟨answer, []⟩ r' :=
  ⟨fun _ t ht => (by cases ht), fun o ho hne => (hne (hexp o ho)).elim,
    fun _ o ho hne => (hne (hexp o ho)).elim⟩

/-- An accepted order makes no self-trade. -/
theorem Sound.execute_no_self_trade (h : r.Sound True) (hpol : r.policy ≠ .none) {t : Trade}
    (ht : t ∈ (r.execute order now).trades) :
    ¬ (t.takerParticipantId = t.makerParticipantId ∧ t.takerParticipantId ≠ kNoParticipant) := by
  rw [execute_trades] at ht
  obtain ⟨f, hf, i, rfl⟩ := mem_tradesOf ht
  obtain ⟨-, -, hself⟩ := (fold_folds _ _ _ _).fill_spec
    (fun m hm => ((h.makers order).1 m hm).2) hf
  intro hsame
  obtain ⟨heq, hne⟩ : order.participantId = f.1.participantId ∧
      order.participantId ≠ kNoParticipant := hsame
  rw [heq] at hne
  simp [selfTrade, hpol, hne, heq] at hself

/-- What an accepted order loses and does not trade whole, it dropped. -/
theorem Sound.execute_dropped (h : r.Sound True) (hopen : 0 ≤ order.remainingQuantity)
    (hfresh : ∀ o ∈ r.all, o.id ≠ order.id) {o : Order}
    (hlost : r.Lost (r.execute order now).book o)
    (hvol : makerVolume o.id (r.execute order now).trades ≠ o.remainingQuantity) :
    o ∈ (r.matched order).dropped := by
  -- an old order is dropped, traded whole, or still there
  rcases h.execute_account hopen hlost.1 (hfresh o hlost.1) with hd | hv | hk
  · exact hd
  · exact (hvol hv).elim
  · exact (hlost.2 _ hk rfl).elim

/-- The orders an accepted order dropped. -/
theorem dropped_self {o : Order} (ho : o ∈ (r.matched order).dropped) :
    (r.policy = .cancelResting ∨ r.policy = .cancelBoth) ∧
      order.participantId = o.participantId ∧ o.participantId ≠ kNoParticipant := by
  obtain ⟨hself, hpol⟩ := (fold_folds _ _ _ _).dropped_spec ho
  rw [selfTrade, decide_eq_true_eq] at hself
  exact ⟨hpol, hself.2.2, hself.2.2 ▸ hself.2.1⟩

/-- Under CancelBoth there is one, and nothing of the taker rests. -/
theorem Sound.dropped_both (h : r.Sound True) (now : Clock) (hopen : 0 ≤ order.remainingQuantity)
    (hfresh : ∀ o ∈ r.all, o.id ≠ order.id) (hpol : r.policy = .cancelBoth) {o : Order}
    (ho : o ∈ (r.matched order).dropped) :
    (∀ x ∈ (r.matched order).dropped, x = o) ∧
      ∀ x ∈ (r.execute order now).book.all, x.id ≠ order.id := by
  have hfold := fold_folds r.policy order order.remainingQuantity
    (reachable order (r.orders order.side.opposite))
  -- the fold ends at the first drop, with the taker killed
  rcases hfold.dropped_both hpol with hnil | ⟨m, hone, hkilled⟩
  · rw [matched, hnil] at ho
    cases ho
  · rw [matched, hone] at ho ⊢
    rw [List.mem_singleton.mp ho]
    refine ⟨fun x hx => List.mem_singleton.mp hx, ?_⟩
    intro x hx
    rcases h.execute_origin hopen hfresh hx with ⟨-, hk⟩ | ⟨y, hy, rfl⟩
    · rw [matched, hkilled] at hk
      cases hk
    · exact hfresh y hy

/-- A call that comes down to matching an order on a book `base`, which has
    every order the call has yet to account for. -/
theorem SafeStep.of_execute {base : RefBook} (h : base.Sound True) (hpol : base.policy = r.policy)
    (hopen : 0 ≤ order.remainingQuantity) (hfresh : ∀ o ∈ base.all, o.id ≠ order.id) {c : Call}
    {answer : Answer} {taker : Order} (htaker : r.takerOf c = some taker)
    (hid : taker.id = order.id) (hpart : taker.participantId = order.participantId)
    (hbase : ∀ o, r.Lost (base.execute order now).book o →
      ¬ Explained c ⟨answer, (base.execute order now).trades⟩ o → o ∈ base.all) :
    SafeStep r c ⟨answer, (base.execute order now).trades⟩ (base.execute order now).book := by
  -- a loss the call does not explain is a drop of the fold
  have hdropped : ∀ o, r.Lost (base.execute order now).book o →
      ¬ Explained c ⟨answer, (base.execute order now).trades⟩ o →
      o ∈ (base.matched order).dropped := by
    intro o hlost hne
    exact h.execute_dropped hopen hfresh ⟨hbase o hlost hne, hlost.2⟩ fun hv => hne (.inl hv)
  refine ⟨?_, ?_, ?_⟩
  · intro hp t ht
    exact h.execute_no_self_trade (hpol ▸ hp) ht
  · intro o hlost hne
    obtain ⟨hp, heq, hnone⟩ := dropped_self (hdropped o hlost hne)
    exact ⟨hpol ▸ hp, taker, htaker, hpart.trans heq, hnone⟩
  · intro hp o hlost hne
    obtain ⟨hone, hrest⟩ :=
      h.dropped_both now hopen hfresh (hpol.trans hp) (hdropped o hlost hne)
    refine ⟨fun x hx hxne => hone x (hdropped x hx hxne), ?_⟩
    intro taker' htaker' x hx
    rw [htaker, Option.some.injEq] at htaker'
    rw [← htaker', hid]
    exact hrest x hx

/-- **Step**: every call of a run with real ids is safe. -/
theorem Effect.safe {c : Call} {reply : Reply} (h : r.Effect c reply r') (hs : r.Sound True)
    (hc : c.NonZero) : SafeStep r c reply r' := by
  cases h with
  | refused | killed | unknown | denied => exact .of_kept fun o ho => ⟨o, ho, rfl⟩
  | cancelled => exact .of_explained fun o ho => .inr (.inl (by rw [lost_remove ho]))
  | lost => exact .of_explained fun o ho => .inr (.inr (.inl ⟨_, _, by rw [lost_remove ho]⟩))
  | reset => exact .of_explained fun o _ => .inr (.inr (.inr rfl))
  | resized =>
    refine .of_kept fun o ho => ?_
    obtain ⟨side, ho⟩ := mem_all.mp ho
    refine ⟨_, mem_all.mpr ⟨side, List.mem_map_of_mem ho⟩, ?_⟩
    split <;> rfl
  | @executed order now hok =>
    have htaker : r.takerOf (.add order) = some order := rfl
    have hopen : 0 ≤ order.opened.remainingQuantity :=
      Int.le_of_lt (rejectReason_eq_none.mp hok).1
    exact .of_execute hs rfl hopen (fresh_of_accepted hok hc) htaker rfl rfl
      fun o hlost _ => hlost.1
  | @replaced id quantity price o now timestamp hfind hok =>
    -- the taker is the resting order itself: same id, same participant
    obtain ⟨hid, -, hoid⟩ := find_some hfind
    have htaker : r.takerOf (.amend id quantity price) = some o := hfind
    refine .of_execute (r := r) (hs.remove id) rfl
      (Int.le_of_lt (rejectReason_eq_none.mp hok).1) (fresh_of_accepted hok ?_) htaker rfl rfl ?_
    · rw [show (OrderBook.replacement o quantity price timestamp).id = id from hoid]
      exact hid
    -- the amended order is named by the call, the others are in `base`
    · intro x hlost hne
      refine mem_remove.mpr ⟨hlost.1, fun hx => hne (.inr (.inr (.inl ⟨quantity, price, ?_⟩)))⟩
      rw [hx]

end steps

end RefBook

/-! ## Section 3: Every run -/

/-- **Self-trade safety and no silent loss**: from every book reached with real
    order ids, every call with a real id returns and is safe; under None and
    CancelIncoming it accounts for every order it loses.  This is said of the
    source while fewer than `2 ^ 32 - 1` orders rest. -/
theorem self_trade_safety (pf : Platform) (k : Approach) (b : k.Book)
    (hb : k.Reachable pf Call.NonZero b) (c : Call) (now : Clock) (hc : c.NonZero) :
    ∃ reply b', b.call pf (c, now) = some (reply, b') ∧
      b.reference.SafeStep c reply b'.reference ∧
      (b.stpPolicy = .none ∨ b.stpPolicy = .cancelIncoming →
        ∀ o, b.reference.Lost b'.reference o → Explained c reply o) := by
  have hvalid : b.Valid pf True := hb.valid fun _ hc _ => hc
  obtain ⟨b', hrun, -, href⟩ := hvalid.call_spec c now fun _ => hc
  have hsafe := (RefBook.call_effect pf hvalid.sound c now).safe hvalid.sound hc
  rw [← href] at hsafe
  refine ⟨_, b', hrun, hsafe, ?_⟩
  intro hpol o hlost
  by_contra hne
  rcases (hsafe.dropped o hlost hne).1 with hp | hp <;>
    rcases hpol with hq | hq <;> rw [OrderBook.reference_policy, hq] at hp <;> cases hp

/-- CancelBoth: the taker trades with one ask, meets its own, and both go. -/
theorem self_trade_safety_cancel_both :
    ∃ (b : Approach.array.Book) (reply : Reply) (b' : Approach.array.Book),
      Approach.array.Reachable .int64 Call.NonZero b ∧
      b.call .int64 (.add ⟨3, 101, 8, 0, 0, 1, 9, .buy, .limit, .gtc⟩, fun _ => 0) =
        some (reply, b') ∧
      reply.answer = .report ⟨3, .cancelled, 5, 0, .none⟩ ∧ b'.orderCount = 0 ∧
      b.reference.SafeStep (.add ⟨3, 101, 8, 0, 0, 1, 9, .buy, .limit, .gtc⟩) reply
        b'.reference := by
  obtain ⟨replies, b, hrun, hcall⟩ := Approach.session_ends
    (P := fun b => (b.call .int64
      (.add ⟨3, 101, 8, 0, 0, 1, 9, .buy, .limit, .gtc⟩, fun _ => 0)).map
        (fun x => (x.1.answer, x.2.orderCount)) =
          some (.report ⟨3, .cancelled, 5, 0, .none⟩, 0))
    (show ((Approach.array.session .int64 1 90 110 4 .cancelBoth
      [(.add ⟨1, 100, 5, 0, 0, 1, 7, .sell, .limit, .gtc⟩, fun _ => 0),
       (.add ⟨2, 100, 5, 0, 0, 1, 9, .sell, .limit, .gtc⟩, fun _ => 0)]).any _) = true by
        decide +kernel)
  have hb : Approach.array.Reachable .int64 Call.NonZero b :=
    Approach.reachable_of_session (by decide) hrun
  obtain ⟨reply, b', hstep, hsafe, -⟩ := self_trade_safety .int64 .array b hb
    (.add ⟨3, 101, 8, 0, 0, 1, 9, .buy, .limit, .gtc⟩) (fun _ => 0) (by decide)
  rw [hstep] at hcall
  obtain ⟨hanswer, hcount⟩ := Prod.mk.inj (Option.some.inj hcall)
  exact ⟨b, reply, b', hb, hstep, hanswer, hcount, hsafe⟩

end LightningLob
