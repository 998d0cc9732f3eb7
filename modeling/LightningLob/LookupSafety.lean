import LightningLob.InstrumentedCalls

/-! # No lookup misses and no index is out of range

    A checked call refuses to touch or release a slot that is outside the pool
    or on the free list, to find the wrong level or an empty one for an indexed
    order, and to take the "invariant violation" exit of `cancel_order`; an
    asserted call refuses the null id in the id index as well.  Indices outside
    the pool, the ladder or its bitset are faults of the plain operations
    already.  In a reachable book nothing is refused. -/

namespace LightningLob

open Ghost

/-! ## Section 1: The checks -/

instance (p : OrderPool) (i : Nat) : Decidable (p.Live i) :=
  inferInstanceAs (Decidable (i < p.nodes.length ∧ i ∉ p.freeList))

/-- A write through `operator[]` to a slot in use. -/
def OrderPool.checkedUpdate (p : OrderPool) (i : Nat) (f : OrderNode → OrderNode) : Run OrderPool :=
  if p.Live i then p.update i f else none

/-- Every access is checked. -/
def Probe.checked (pf : Platform) : Probe Unit where
  get p i := if p.Live i then p.get i else none
  update p i f := p.checkedUpdate i f
  acquire p order :=
    match p.freeList with
    | idx :: rest => do
        -- the slot is off the free list before it is written
        let p ← { p with freeList := rest }.checkedUpdate idx fun _ => { order := order }
        pure (idx, p)
    | [] => p.acquire pf order
  release p i := if p.Live i then liftM (p.release pf i) else fun _ => none
  reset p := pure p.reset
  insert ids id idx := ids.insert id idx
  found level price := if level.price = price ∧ ¬ level.empty then pure () else none
  missing := none

/-- The assertion of `IdIndexMap::insert` is checked too. -/
def Probe.asserted (pf : Platform) : Probe Unit :=
  { Probe.checked pf with
    insert := fun ids id idx => if id ≠ kInvalidOrderId then ids.insert id idx else none }

theorem Probe.checked_sound (pf : Platform) :
    (Probe.checked pf).Sound pf False fun _ _ => True where
  get hi := if_pos hi
  update f hi := if_pos hi
  keep _ _ := trivial
  acquire {g p} order hp _ := by
    cases hfree : p.freeList with
    | nil =>
      simp only [checked, hfree]
      exact .lift rfl fun _ _ => trivial
    | cons idx rest =>
      -- the free list has no slot twice, so the one taken off is in use now
      have hlive : OrderPool.Live { p with freeList := rest } idx := by
        have hnd := hp.nodup
        rw [hfree] at hnd
        exact ⟨hp.lt idx (by simp [hfree]), (List.nodup_cons.mp hnd).1⟩
      simp only [checked, OrderPool.acquire, hfree]
      refine .lift_bind (if_pos hlive) fun p' _ => ?_
      exact .pure trivial
  release {g p i} _ hi _ := by
    simp only [checked, if_pos hi]
    exact .lift rfl fun _ _ => trivial
  reset _ := .pure trivial
  insert _ := rfl
  found {l} hl := by
    simp [checked, hl]

theorem Probe.asserted_sound (pf : Platform) :
    (Probe.asserted pf).Sound pf True fun _ _ => True :=
  { Probe.checked_sound pf with insert := fun hid => if_pos (hid trivial) }

/-! ## Section 2: Every reachable book -/

/-- **No lookup misses and no index is out of range.**  Every call on a book
    reached with real order ids returns, and so does the call with its checks:
    the level of an indexed order is always found, and every slot touched or
    released is one in use.  With a real id the assertion of the id index holds
    as well.  This is said of the source while fewer than `2 ^ 32 - 1` orders
    rest. -/
theorem no_lookup_misses (pf : Platform) (k : Approach) (b : k.Book)
    (hb : k.Reachable pf Call.NonZero b) (c : Call) (now : Clock) :
    ∃ reply b', b.call pf (c, now) = some (reply, b') ∧
      (Probe.checked pf).call pf b (c, now) () = some ((reply, b'), ()) ∧
      (c.NonZero → (Probe.asserted pf).call pf b (c, now) () = some ((reply, b'), ())) := by
  have hvalid : b.Valid pf False := hb.valid fun _ _ hz => hz.elim
  obtain ⟨b', hrun, -, -⟩ := hvalid.call_spec c now False.elim
  refine ⟨_, b', hrun, ?_, ?_⟩
  · obtain ⟨_, hchecked, -⟩ := hvalid.call_follows (Probe.checked_sound pf) trivial c now
      False.elim _ hrun
    exact hchecked
  · intro hc
    obtain ⟨_, hasserted, -⟩ := hvalid.call_follows (Probe.asserted_sound pf) trivial c now
      (fun _ => hc) _ hrun
    exact hasserted

/-- A price change of the middle one of three bids at one price, whose slot is
    released and acquired again in the same call. -/
theorem no_lookup_misses_reused_slot :
    ∃ b : Approach.array.Book, Approach.array.Reachable .int64 Call.NonZero b ∧
      b.idIndex.find 2 = some (some 1) ∧
      ∃ reply b', b.call .int64 (.amend 2 6 (some 101), fun _ => 1) = some (reply, b') ∧
        b'.idIndex.find 2 = some (some 1) ∧
        (Probe.asserted .int64).call .int64 b (.amend 2 6 (some 101), fun _ => 1) () =
          some ((reply, b'), ()) := by
  obtain ⟨replies, b, hrun, hslot, hagain⟩ := Approach.session_ends
    (P := fun b => b.idIndex.find 2 = some (some 1) ∧
      (b.call .int64 (.amend 2 6 (some 101), fun _ => 1)).all
        (fun r => r.2.idIndex.find 2 = some (some 1)) = true)
    (show ((Approach.array.session .int64 1 90 110 4 .none
      [(.add ⟨1, 100, 5, 0, 0, 1, 7, .buy, .limit, .gtc⟩, fun _ => 0),
       (.add ⟨2, 100, 5, 0, 0, 1, 7, .buy, .limit, .gtc⟩, fun _ => 0),
       (.add ⟨3, 100, 8, 0, 0, 1, 7, .buy, .limit, .gtc⟩, fun _ => 0)]).any _) = true by
        decide +kernel)
  have hb : Approach.array.Reachable .int64 Call.NonZero b :=
    Approach.reachable_of_session (by decide) hrun
  obtain ⟨reply, b', hcall, -, hasserted⟩ :=
    no_lookup_misses .int64 .array b hb (.amend 2 6 (some 101)) fun _ => 1
  rw [hcall] at hagain
  exact ⟨b, hb, hslot, reply, b', hcall, of_decide_eq_true hagain, hasserted trivial⟩

end LightningLob
