import LightningLob.EngineRuns

/-! # Ids assigned by the engine

    The engine's counter and the ids clients choose share one namespace.  An
    order that comes without an id is refused as a duplicate exactly when the
    counter has reached the id of an order that rests in its book. -/

namespace LightningLob

/-! ## Section 1: The duplicate check of a book -/

/-- The duplicate check comes last. -/
theorem RefBook.rejectReason_eq_duplicate {r : RefBook} {order : Order} :
    r.rejectReason order = some .duplicateOrderId ↔
      0 < order.quantity ∧ (order.type = .limit → 0 < order.price ∧ r.inRange order.price = true) ∧
        (r.find order.id).isSome = true := by
  unfold rejectReason
  by_cases h₁ : order.quantity ≤ 0
  · simp [h₁, Int.not_lt.mpr h₁]
  by_cases h₂ : order.type = .limit ∧ order.price ≤ 0
  · simp [h₁, h₂, Int.not_lt.mpr h₂.2]
  by_cases h₃ : order.type = .limit ∧ ¬ r.inRange order.price = true
  · rw [if_neg h₁, if_neg h₂, if_pos h₃]
    simp [h₃.1, h₃.2]
  rw [if_neg h₁, if_neg h₂, if_neg h₃]
  have hp : order.type = .limit → 0 < order.price ∧ r.inRange order.price = true := by
    intro ht
    rw [not_and] at h₂ h₃
    exact ⟨Int.not_le.mp (h₂ ht), Classical.not_not.mp (h₃ ht)⟩
  by_cases hf : (r.find order.id).isSome = true
  · simpa [hf, Int.not_le.mp h₁] using hp
  · simp [hf]

/-- When a book answers that an order is a duplicate. -/
theorem RefBook.addOrder_duplicate_iff (pf : Platform) (r : RefBook) (order : Order) (now : Clock) :
    (∃ id, (r.call pf (.add order, now)).1.answer = .report (.reject id .duplicateOrderId)) ↔
      r.rejectReason order = some .duplicateOrderId := by
  show (∃ id, Answer.report (r.addOrder pf order now).report = _) ↔ _
  cases hreason : r.rejectReason order with
  | some reason =>
    simp only [addOrder, hreason, ExecutionReport.reject]
    simp [eq_comm]
  | none =>
    have hstatus := (addOrder_reported pf now hreason).2
    simp only [reduceCtorEq, iff_false, not_exists]
    intro id heq
    rw [Answer.report.inj heq] at hstatus
    exact hstatus rfl

/-- The risk check has reasons of its own. -/
theorem SymbolParticipantState.check_reason (pf : Platform) (st : SymbolParticipantState)
    (side : Side) (quantity : Int) (now : Timestamp) :
    (st.check pf side quantity now).1 ≠ .duplicateOrderId := by
  unfold check
  split
  · simp
  split
  · simp
  simp only
  split <;> simp

theorem RiskManager.checkNewOrder_reason (pf : Platform) (rm : RiskManager) (s p : Nat)
    (side : Side) (quantity : Int) (now : Timestamp) :
    (rm.checkNewOrder pf s p side quantity now).1 ≠ .duplicateOrderId := by
  unfold checkNewOrder
  cases rm.state (packKey s p) with
  | none => simp
  | some st => exact st.check_reason pf side quantity now

/-! ## Section 2: Clashes -/

namespace MatchingEngine

variable {k : Approach} {pf : Platform} {e : MatchingEngine k}

/-- The call submits an order without an id, nothing else speaks against it,
    and the id it would be given is a resting order's. -/
def NextIdTaken (pf : Platform) (e : MatchingEngine k) : EngineCall × Clock → Prop
  | (.submit request, now) =>
      request.clientOrderId = 0 ∧
      (e.riskManager.checkNewOrder pf request.symbol.toNat request.participantId.toNat request.side
        request.quantity (now 0)).1 = .none ∧
      ∃ b, e.books request.symbol.toNat = some b ∧ 0 < request.quantity ∧
        (request.type = .limit → 0 < request.price ∧ b.inRange request.price = true) ∧
        (b.reference.find e.nextOrderId.toNat).isSome = true
  | _ => False

/-- The call submits an order without an id and it is refused as a duplicate. -/
def RefusedAsDuplicate (a : EngineCall × Clock) (reply : Reply) : Prop :=
  ∃ request id, a.1 = .submit request ∧ request.clientOrderId = 0 ∧
    reply.answer = .report (.reject id .duplicateOrderId)

/-- **Step**: a call is refused as a duplicate exactly when its id is taken. -/
theorem Effect.duplicate_iff {e' : MatchingEngine k} {a : EngineCall × Clock} {reply : Reply}
    (h : e.Effect pf a reply e') : RefusedAsDuplicate a reply ↔ e.NextIdTaken pf a := by
  cases h with
  | @idle a answer hsubmit =>
    obtain ⟨c, now⟩ := a
    cases c with
    | submit request =>
      obtain ⟨hnone, rfl⟩ := hsubmit request rfl
      simp [RefusedAsDuplicate, NextIdTaken, hnone, ExecutionReport.reject]
    | _ => simp [RefusedAsDuplicate, NextIdTaken]
  | registered | limited => simp [RefusedAsDuplicate, NextIdTaken]
  | @refused request now reason rm b hbook hcheck hreason =>
    have hdup := e.riskManager.checkNewOrder_reason pf request.symbol.toNat
      request.participantId.toNat request.side request.quantity (now 0)
    rw [hcheck] at hdup
    simp only [RefusedAsDuplicate, NextIdTaken, hcheck, hreason, false_and, and_false, iff_false]
    rintro ⟨request', id, -, -, heq⟩
    exact hdup (congrArg ExecutionReport.rejectReason (Answer.report.inj heq))
  | @booked a symbol c rm n b b' hbook hforward _ =>
    cases hforward with
    | cancel | amend | reset => simp [RefusedAsDuplicate, NextIdTaken]
    | @submit request now rm hcheck =>
      constructor
      · rintro ⟨request', id, hreq, hzero, heq⟩
        cases hreq
        obtain ⟨hq, hprice, hfind⟩ := RefBook.rejectReason_eq_duplicate.mp
          ((RefBook.addOrder_duplicate_iff pf b.reference _ _).mp ⟨id, heq⟩)
        refine ⟨hzero, by rw [hcheck], b, hbook, hq, hprice, ?_⟩
        simpa [OrderRequest.toOrder, assignId, hzero] using hfind
      · rintro ⟨hzero, -, b₁, hb₁, hq, hprice, hfind⟩
        obtain rfl : b = b₁ := Option.some.inj (hbook.symm.trans hb₁)
        obtain ⟨id, heq⟩ := (RefBook.addOrder_duplicate_iff pf b.reference
          (request.toOrder (e.assignId request).1.toNat (now 0)) fun i => now (i + 1)).mpr
          (RefBook.rejectReason_eq_duplicate.mpr ⟨hq, hprice, by
            simpa [OrderRequest.toOrder, assignId, hzero] using hfind⟩)
        exact ⟨request, id, rfl, hzero, heq⟩

end MatchingEngine

/-- **Assigned ids**: in every run of an engine, from any risk manager, no
    order that came without an id is refused as a duplicate exactly when no
    such order is submitted while the next id is taken. -/
theorem assigned_ids_never_clash_iff (pf : Platform) (k : Approach) (rm : RiskManager)
    (calls : List (EngineCall × Clock)) :
    ∃ replies e, Runs.exec (MatchingEngine.call pf) ({ riskManager := rm } : MatchingEngine k)
        calls = some (replies, e) ∧
      ((∀ x ∈ calls.zip replies, ¬ MatchingEngine.RefusedAsDuplicate x.1 x.2) ↔
        Runs.Along (MatchingEngine.call pf) (fun e a => ¬ e.NextIdTaken pf a)
          ({ riskManager := rm } : MatchingEngine k) calls) := by
  have hstep : ∀ (e : MatchingEngine k) (a : EngineCall × Clock), e.Valid pf →
      ∃ reply e', e.call pf a = some (reply, e') ∧ e'.Valid pf ∧
        (¬ e.NextIdTaken pf a ↔ ¬ MatchingEngine.RefusedAsDuplicate a reply) := by
    intro e a hvalid
    obtain ⟨reply, e', hcall, heffect, hvalid'⟩ := hvalid.call_spec a
    exact ⟨reply, e', hcall, hvalid', not_congr heffect.duplicate_iff.symm⟩
  obtain ⟨replies, e, hrun, hiff⟩ := Runs.along_iff_answers hstep calls { riskManager := rm }
    (MatchingEngine.valid_initial rm)
  exact ⟨replies, e, hrun, hiff.symm⟩

/-- A client's own id 1 rests when the counter gives its first id. -/
theorem assigned_id_clashes :
    (Runs.exec (MatchingEngine.call .int64) ({} : MatchingEngine .map)
      [(.addSymbol 1 90 110 4 .none, fun _ => 0),
       (.submit ⟨1, 1, 7, .sell, .limit, 100, 5, .gtc⟩, fun _ => 0),
       (.submit ⟨0, 1, 8, .sell, .limit, 101, 5, .gtc⟩, fun _ => 0)]).map Prod.fst =
        some [⟨.done, []⟩, ⟨.report ⟨1, .new, 0, 5, .none⟩, []⟩,
          ⟨.report (.reject 1 .duplicateOrderId), []⟩] := by
  decide +kernel

end LightningLob
