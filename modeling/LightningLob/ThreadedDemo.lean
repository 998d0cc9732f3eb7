import LightningLob.DrainLoop
import LightningLob.EngineRuns

/-! # The multi-threaded demo submits to one engine (`main.cpp`)

    The handler of the drain loop is `submit_order`.  Whatever the threads do,
    the engine is that of a run in which the same orders come one by one. -/

namespace LightningLob

open Gateway (Event handledOn handlerCalls)

namespace SharedGateway

/-! ## Section 1: The handler -/

/-- The handler of `run_multithreaded_demo`, with the clock of each of its calls
    and the replies so far. -/
def submitTo {k : Approach} (pf : Platform) (clocks : Nat → Clock)
    (s : List Reply × MatchingEngine k) (request : OrderRequest) :
    Run (List Reply × MatchingEngine k) := do
  let (reply, e) ← s.2.submitOrder pf request (clocks s.1.length)
  pure (s.1 ++ [reply], e)

/-- The calls on the engine, when the requests come one by one. -/
def submissions (clocks : Nat → Clock) (i : Nat) : List OrderRequest → List (EngineCall × Clock)
  | [] => []
  | request :: rest => (.submit request, clocks i) :: submissions clocks (i + 1) rest

section handler

variable {k : Approach} {pf : Platform} {clocks : Nat → Clock}

/-- The handler's calls are a run of the engine. -/
theorem exec_of_foldlM {requests : List OrderRequest} :
    ∀ {replies replies' : List Reply} {e e' : MatchingEngine k},
      requests.foldlM (submitTo pf clocks) (replies, e) = some (replies', e') →
      ∃ new, replies' = replies ++ new ∧
        Runs.exec (MatchingEngine.call pf) e (submissions clocks replies.length requests) =
          some (new, e') := by
  induction requests with
  | nil =>
    intro replies replies' e e' h
    obtain ⟨rfl, rfl⟩ := Prod.mk.inj (Option.some.inj h)
    exact ⟨[], (List.append_nil _).symm, rfl⟩
  | cons request rest ih =>
    intro replies replies' e e' h
    rw [List.foldlM_cons] at h
    obtain ⟨⟨replies₁, e₁⟩, hone, hrest⟩ := Option.bind_eq_some_iff.mp h
    obtain ⟨⟨reply, e₂⟩, hsubmit, hone⟩ := Option.bind_eq_some_iff.mp hone
    obtain ⟨rfl, rfl⟩ := Prod.mk.inj (Option.some.inj hone)
    obtain ⟨new, rfl, hrun⟩ := ih hrest
    rw [List.length_append, List.length_singleton] at hrun
    exact ⟨reply :: new, by simp, Runs.exec_cons_eq_some.mpr ⟨reply, e₂, new, hsubmit, hrun, rfl⟩⟩

/-- So the engine stays valid. -/
theorem valid_of_exec {e e' : MatchingEngine k} (h : e.Valid pf)
    {calls : List (EngineCall × Clock)} {replies : List Reply}
    (hrun : Runs.exec (MatchingEngine.call pf) e calls = some (replies, e')) : e'.Valid pf := by
  refine Runs.exec_invariant (P := fun _ e => MatchingEngine.Valid pf e) ?_ calls [] e h hrun
  intro _ e a reply e' hvalid hs
  obtain ⟨reply', e₁, hcall, -, hvalid'⟩ := hvalid.call_spec a
  obtain ⟨-, rfl⟩ := Prod.mk.inj (Option.some.inj (hcall.symm.trans hs))
  exact hvalid'

end handler

/-! ## Section 2: Every run -/

/-- After the events `evs` of the demo, from the engine `e`. -/
structure Serializes (pf : Platform) {k : Approach} (capacity : Capacity) (n : Nat)
    (requests : Nat → List OrderRequest) (clocks : Nat → Clock) (e : MatchingEngine k)
    (evs : List Event) (s : State (List Reply × MatchingEngine k)) : Prop where
  race_free : ¬ s.Racing n
  /-- The engine is that of a sequential run of what was handled. -/
  sequential : Runs.exec (MatchingEngine.call pf) e
    (submissions clocks 0 ((handlerCalls evs).map Prod.snd)) = some (s.engine.1, s.engine.2)
  /-- Every producer's orders reach it in the producer's order. -/
  program_order : ∀ p < n, handledOn p evs <+: requests p
  /-- All of them do before the loop exits. -/
  complete : s.consumer = .done → (∀ p < n, handledOn p evs = requests p) ∧
    s.processed = ∑ p ∈ Finset.range n, (requests p).length
  /-- Nobody gets stuck. -/
  progress : (s.consumer ≠ .done →
      ∃ pos, (step capacity .source (submitTo pf clocks) n s (.matcher pos)).isSome) ∧
    ∀ p < n, (s.threads p).finished = false →
      ∃ pos, (step capacity .source (submitTo pf clocks) n s (.producer p pos)).isSome

/-- What was handled, one order after the other, makes up the engine. -/
theorem exec_handled {pf : Platform} {k : Approach} {capacity : Capacity} {n : Nat}
    {requests : Nat → List OrderRequest} {clocks : Nat → Clock} {e : MatchingEngine k}
    {evs : List Event} {s : State (List Reply × MatchingEngine k)}
    (h : Delivers capacity (submitTo pf clocks) n requests ([], e) evs s) :
    Runs.exec (MatchingEngine.call pf) e
      (submissions clocks 0 ((handlerCalls evs).map Prod.snd)) = some s.engine := by
  obtain ⟨new, hnew, hexec⟩ := exec_of_foldlM h.engine
  rw [List.nil_append] at hnew
  rw [← hnew] at hexec
  exact hexec

/-- **The demo is sequential for the engine**: for every kind of book, every
    number of producers and all that they submit, in whatever order the threads
    move and whichever stores their loads return. -/
theorem demo_serializes (pf : Platform) {k : Approach} (capacity : Capacity) (n : Nat)
    (requests : Nat → List OrderRequest) (clocks : Nat → Clock) (e : MatchingEngine k)
    (he : e.Valid pf) (actions : List Action) (evs : List Event)
    (s : State (List Reply × MatchingEngine k))
    (hrun : Runs.exec (step capacity .source (submitTo pf clocks) n) (start n requests ([], e))
      actions = some (evs, s)) : Serializes pf capacity n requests clocks e evs s := by
  obtain ⟨hkept, hworked⟩ := kept_of_exec CounterOrders.synchronize_source hrun
  have h := hkept.delivers hworked
  have hexec := exec_handled h
  refine ⟨h.race_free, hexec, fun p hp => (h.in_order p).trans (h.accepted p hp), ?_, ?_,
    h.progress.2⟩
  · intro hdone
    obtain ⟨hall, htotal⟩ := h.exited hdone
    exact ⟨fun p hp => (hall p hp).2, htotal⟩
  · intro hpc
    rcases h.progress.1 hpc with hstep | ⟨request, -, hfault⟩
    · exact hstep
    · obtain ⟨reply, e', hsubmit, -, -⟩ :=
        (valid_of_exec he hexec).submitOrder_spec request (clocks s.engine.1.length)
      simp [submitTo, hsubmit] at hfault

/-- One producer sells and the other one buys. -/
def sellerAndBuyer (p : Nat) : List OrderRequest :=
  List.replicate 2 (if p = 0 then ⟨0, 1, 7, .sell, .limit, 100, 5, .gtc⟩
    else ⟨0, 1, 8, .buy, .limit, 100, 5, .gtc⟩)

/-- Two producers with two orders each, and lanes for one: the second sell order
    is refused until the first is handled. -/
theorem demo_serializes_two_orders :
    ∃ (evs : List Event) (s : State (List Reply × MatchingEngine .map)), s.consumer = .done ∧
      s.processed = 4 ∧ (handlerCalls evs).map Prod.fst = [1, 0, 0, 1] ∧
      s.engine.1.map (fun reply => reply.trades.length) = [0, 1, 0, 1] ∧
      Serializes .int64 ⟨2, by decide, by decide⟩ 2 sellerAndBuyer (fun _ _ => 0)
        (({} : MatchingEngine .map).addSymbol .int64 1 90 110 4 .none) evs s := by
  have he : (({} : MatchingEngine .map).addSymbol .int64 1 90 110 4 .none).Valid .int64 := by
    have hinitial : ({} : MatchingEngine .map).Valid .int64 := MatchingEngine.valid_initial {}
    obtain ⟨reply, e', hcall, -, hvalid⟩ :=
      hinitial.call_spec (.addSymbol 1 90 110 4 .none, fun _ => 0)
    obtain ⟨-, rfl⟩ := Prod.mk.inj (Option.some.inj hcall)
    exact hvalid
  obtain ⟨evs, s, hrun, hdone, hprocessed, hlanes, htrades⟩ := Runs.exists_exec_of_any
    (step ⟨2, by decide, by decide⟩ .source (submitTo .int64 fun _ _ => 0) 2)
    (start 2 sellerAndBuyer ([], ({} : MatchingEngine .map).addSymbol .int64 1 90 110 4 .none))
    [.producer 0 0, .producer 0 0, .producer 0 0, .producer 0 0, .producer 0 1, .producer 0 0,
      .producer 1 0, .producer 1 0, .producer 1 0, .producer 1 0,
      .matcher 0, .matcher 0, .matcher 0, .matcher 0, .matcher 0, .matcher 0,
      .matcher 0, .matcher 0, .matcher 1, .matcher 0, .matcher 0,
      .matcher 0, .matcher 1, .matcher 0, .matcher 0, .matcher 0,
      .producer 1 1, .producer 1 1, .producer 1 0, .producer 1 0, .producer 1 0,
      .producer 0 1, .producer 0 1, .producer 0 0, .producer 0 0, .producer 0 0,
      .matcher 2, .matcher 1, .matcher 2, .matcher 1, .matcher 2, .matcher 0, .matcher 0,
      .matcher 1, .matcher 2, .matcher 0, .matcher 0, .matcher 0,
      .matcher 2, .matcher 2, .matcher 2, .matcher 2, .matcher 2, .matcher 0]
    (fun evs s => s.consumer = .done ∧ s.processed = 4 ∧
      (handlerCalls evs).map Prod.fst = [1, 0, 0, 1] ∧
      s.engine.1.map (fun reply => reply.trades.length) = [0, 1, 0, 1])
    (by decide +kernel)
  exact ⟨evs, s, hdone, hprocessed, hlanes, htrades,
    demo_serializes _ _ 2 _ _ _ he _ evs s hrun⟩

end SharedGateway

end LightningLob
