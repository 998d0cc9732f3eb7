import LightningLob.SpscRingBuffer

/-! # The order gateway (`order_gateway.hpp`) and its drain loop

    One lane for each producer, and one consumer that sweeps over the lanes.
    Section 2 is the program around it, as the demo and the tests run it: the
    producers submit and then count themselves out, and the consumer polls
    until nobody is left and every lane is empty.  Each queue operation, each
    `empty` test and each access to the counter is one step. -/

namespace LightningLob

/-! ## Section 1: The gateway -/

instance : Inhabited OrderRequest := ⟨{}⟩

structure OrderGateway where
  lanes : List (SpscRingBuffer OrderRequest)
  nextLane : Nat := 0
  deriving DecidableEq, Repr

namespace OrderGateway

variable (capacity : Capacity)

/-- The constructor. -/
def create (numProducers : Nat) : OrderGateway :=
  { lanes := List.replicate numProducers (.create capacity) }

/-- `submit`. -/
def submit (gateway : OrderGateway) (laneIndex : Nat) (request : OrderRequest) :
    Run (Bool × OrderGateway) := do
  let lane ← gateway.lanes[laneIndex]?
  let (accepted, lane) ← lane.tryPush capacity request
  pure (accepted, { gateway with lanes := gateway.lanes.set laneIndex lane })

/-- `all_lanes_empty`. -/
def allLanesEmpty (gateway : OrderGateway) : Bool := gateway.lanes.all SpscRingBuffer.empty

/-- Round `i` of the loop in `poll_once`: the lane it visits, and the request it
    pops there. -/
def pollLane (gateway : OrderGateway) (i : Nat) :
    Run (Nat × Option OrderRequest × OrderGateway) := do
  let lane := (gateway.nextLane + i) % gateway.lanes.length
  let ring ← gateway.lanes[lane]?
  let (request, ring) ← ring.tryPop capacity
  pure (lane, request, { gateway with lanes := gateway.lanes.set lane ring })

/-- The end of `poll_once`: the next sweep starts one lane further. -/
def rotated (gateway : OrderGateway) : OrderGateway :=
  if 0 < gateway.lanes.length then
    { gateway with nextLane := (gateway.nextLane + 1) % gateway.lanes.length }
  else
    gateway

/-- The loop of `poll_once` from round `i` on, with the requests it hands to
    the handler. -/
def pollFrom (i drained : Nat) : Nat → OrderGateway → Run (Nat × List OrderRequest × OrderGateway)
  | 0, gateway => pure (drained, [], gateway.rotated)
  | rounds + 1, gateway => do
      let (_, request, gateway) ← gateway.pollLane capacity i
      match request with
      | some request =>
          let (drained, requests, gateway) ← pollFrom (i + 1) (drained + 1) rounds gateway
          pure (drained, request :: requests, gateway)
      | none => pollFrom (i + 1) drained rounds gateway

/-- `poll_once`: its result, and the requests it hands to the handler. -/
def pollOnce (gateway : OrderGateway) : Run (Nat × List OrderRequest × OrderGateway) :=
  pollFrom capacity 0 0 gateway.lanes.length gateway

variable {capacity}

theorem pollLane_lanes {gateway gateway' : OrderGateway} {i lane : Nat}
    {request : Option OrderRequest}
    (h : gateway.pollLane capacity i = some (lane, request, gateway')) :
    gateway'.lanes.length = gateway.lanes.length := by
  unfold pollLane at h
  simp only [Option.bind_eq_bind, Option.bind_eq_some_iff, Option.pure_def, Option.some.injEq,
    Prod.mk.injEq, Prod.exists] at h
  obtain ⟨ring, -, out, ring', -, -, -, rfl⟩ := h
  simp

end OrderGateway

/-! ## Section 2: Producers and the drain loop -/

namespace Gateway

/-- Where the consumer is in `while (producers_remaining > 0 ||
    !all_lanes_empty()) poll_once(handler)`. -/
inductive Consumer where
  /-- About to load `producers_remaining`. -/
  | test
  /-- In `all_lanes_empty`, at a lane. -/
  | scan (lane : Nat)
  /-- In `poll_once`, at a round, with its local `drained`. -/
  | sweep (i drained : Nat)
  | done
  deriving DecidableEq, Repr

structure State where
  gateway : OrderGateway
  /-- Whether the producer of a lane may still submit. -/
  running : List Bool
  producersRemaining : Int
  consumer : Consumer := .test
  deriving DecidableEq, Repr

/-- Who moves next: the producer of a lane, or the consumer. -/
inductive Action where
  | submit (lane : Nat) (request : OrderRequest)
  | finish (lane : Nat)
  | consumer
  deriving DecidableEq, Repr

inductive Event where
  | silent
  | accepted (lane : Nat) (request : OrderRequest)
  | refused (lane : Nat) (request : OrderRequest)
  | finished (lane : Nat)
  /-- The handler is called with a request from the lane. -/
  | handled (lane : Nat) (request : OrderRequest)
  /-- The sweep found nothing in the lane. -/
  | passed (lane : Nat)
  /-- `poll_once` returned. -/
  | polled (drained : Nat)
  | exited
  deriving DecidableEq, Repr

variable (capacity : Capacity)

def start (numProducers : Nat) : State where
  gateway := .create capacity numProducers
  running := List.replicate numProducers true
  producersRemaining := numProducers

/-- The consumer's next step. -/
def consumerStep (s : State) : Run (Event × State) :=
  match s.consumer with
  | .test =>
      if s.producersRemaining > 0 then
        pure (.silent, { s with consumer := .sweep 0 0 })
      else
        pure (.silent, { s with consumer := .scan 0 })
  | .scan lane =>
      match s.gateway.lanes[lane]? with
      | some ring =>
          if ring.empty then
            pure (.silent, { s with consumer := .scan (lane + 1) })
          else
            pure (.silent, { s with consumer := .sweep 0 0 })
      | none => pure (.exited, { s with consumer := .done })
  | .sweep i drained =>
      if i < s.gateway.lanes.length then do
        let (lane, request, gateway) ← s.gateway.pollLane capacity i
        match request with
        | some request =>
            pure (.handled lane request,
              { s with gateway := gateway, consumer := .sweep (i + 1) (drained + 1) })
        | none =>
            pure (.passed lane, { s with gateway := gateway, consumer := .sweep (i + 1) drained })
      else
        pure (.polled drained, { s with gateway := s.gateway.rotated, consumer := .test })
  | .done => none

/-- One step.  A producer submits on its own lane while it runs, and counts
    itself out once. -/
def step (s : State) : Action → Run (Event × State)
  | .submit lane request =>
      if s.running[lane]? = some true then do
        let (accepted, gateway) ← s.gateway.submit capacity lane request
        pure (if accepted then .accepted lane request else .refused lane request,
          { s with gateway := gateway })
      else
        none
  | .finish lane =>
      if s.running[lane]? = some true then
        pure (.finished lane, { s with
          running := s.running.set lane false
          producersRemaining := s.producersRemaining - 1 })
      else
        none
  | .consumer => consumerStep capacity s

/-! ## Section 3: Uninterrupted calls -/

/-- The handler's calls, with the lanes the requests come from. -/
def handlerCalls (evs : List Event) : List (Nat × OrderRequest) :=
  evs.filterMap fun
    | .handled lane request => some (lane, request)
    | _ => none

/-- The rounds of a sweep, one after the other, do what `poll_once` does. -/
theorem exec_pollFrom (rounds : Nat) :
    ∀ {s : State} {i drained result : Nat} {requests : List OrderRequest} {gateway : OrderGateway},
      s.consumer = .sweep i drained → i + rounds = s.gateway.lanes.length →
      s.gateway.pollFrom capacity i drained rounds = some (result, requests, gateway) →
      ∃ evs, Runs.exec (step capacity) s (List.replicate (rounds + 1) .consumer) =
          some (evs ++ [.polled result], { s with gateway := gateway, consumer := .test }) ∧
        (handlerCalls evs).map Prod.snd = requests := by
  induction rounds with
  | zero =>
    intro s i drained result requests gateway hpc hi h
    obtain ⟨rfl, rfl, rfl⟩ : drained = result ∧ [] = requests ∧ s.gateway.rotated = gateway := by
      simpa [OrderGateway.pollFrom] using h
    refine ⟨[], ?_, rfl⟩
    simp [Runs.exec, step, consumerStep, hpc, show ¬ i < s.gateway.lanes.length by omega]
  | succ rounds ih =>
    intro s i drained result requests gateway hpc hi h
    simp only [OrderGateway.pollFrom, Option.bind_eq_bind, Option.bind_eq_some_iff,
      Prod.exists] at h
    obtain ⟨lane, request, g, hpoll, h⟩ := h
    have hlen := OrderGateway.pollLane_lanes hpoll
    have hlt : i < s.gateway.lanes.length := by omega
    cases request with
    | none =>
      obtain ⟨evs, hrun, hcalls⟩ := ih
        (s := { s with gateway := g, consumer := .sweep (i + 1) drained }) rfl
        (by simp only; omega) h
      refine ⟨.passed lane :: evs, ?_, hcalls⟩
      refine Runs.exec_cons_eq_some.mpr ⟨_, _, _, ?_, hrun, rfl⟩
      simp [step, consumerStep, hpc, hlt, hpoll]
    | some request =>
      simp only [Option.bind_eq_some_iff, Prod.exists, Option.pure_def, Option.some.injEq,
        Prod.mk.injEq] at h
      obtain ⟨result', requests', gateway', h, rfl, rfl, rfl⟩ := h
      obtain ⟨evs, hrun, hcalls⟩ := ih
        (s := { s with gateway := g, consumer := .sweep (i + 1) (drained + 1) }) rfl
        (by simp only; omega) h
      refine ⟨.handled lane request :: evs, ?_, congrArg (request :: ·) hcalls⟩
      refine Runs.exec_cons_eq_some.mpr ⟨_, _, _, ?_, hrun, rfl⟩
      simp [step, consumerStep, hpc, hlt, hpoll]

/-- `poll_once` as the drain loop runs it. -/
theorem exec_pollOnce {s : State} (hpc : s.consumer = .sweep 0 0) {result : Nat}
    {requests : List OrderRequest} {gateway : OrderGateway}
    (h : s.gateway.pollOnce capacity = some (result, requests, gateway)) :
    ∃ evs, Runs.exec (step capacity) s
          (List.replicate (s.gateway.lanes.length + 1) .consumer) =
        some (evs ++ [.polled result], { s with gateway := gateway, consumer := .test }) ∧
      (handlerCalls evs).map Prod.snd = requests :=
  exec_pollFrom capacity _ hpc (Nat.zero_add _) h

/-- The tests of `all_lanes_empty` from a lane on, one after the other. -/
theorem exec_scan (m : Nat) {s : State} {lane : Nat} (hpc : s.consumer = .scan lane)
    (hm : lane + m = s.gateway.lanes.length) :
    ∃ n evs, Runs.exec (step capacity) s (List.replicate n .consumer) =
      some (evs, { s with consumer :=
        if (s.gateway.lanes.drop lane).all SpscRingBuffer.empty then .done else .sweep 0 0 }) := by
  induction m generalizing s lane with
  | zero =>
    have hnone : s.gateway.lanes[lane]? = none := List.getElem?_eq_none (by omega)
    refine ⟨1, [.exited], ?_⟩
    rw [List.drop_eq_nil_of_le (by omega)]
    simp [Runs.exec, step, consumerStep, hpc, hnone]
  | succ m ih =>
    have hlt : lane < s.gateway.lanes.length := by omega
    have hring := List.getElem?_eq_getElem hlt
    rw [List.drop_eq_getElem_cons hlt, List.all_cons]
    cases hempty : s.gateway.lanes[lane].empty with
    | false =>
      refine ⟨1, [.silent], ?_⟩
      simp [Runs.exec, step, consumerStep, hpc, hring, hempty]
    | true =>
      obtain ⟨n, evs, hrun⟩ := ih (s := { s with consumer := .scan (lane + 1) }) rfl
        (by simp only; omega)
      refine ⟨n + 1, .silent :: evs, Runs.exec_cons_eq_some.mpr ⟨_, _, _, ?_, hrun, rfl⟩⟩
      simp [step, consumerStep, hpc, hring, hempty]

/-- `all_lanes_empty` as the drain loop runs it: it ends the loop or goes on to
    the next sweep. -/
theorem exec_allLanesEmpty {s : State} (hpc : s.consumer = .scan 0) :
    ∃ n evs, Runs.exec (step capacity) s (List.replicate n .consumer) =
      some (evs, { s with
        consumer := if s.gateway.allLanesEmpty then .done else .sweep 0 0 }) :=
  exec_scan capacity _ hpc (Nat.zero_add _)

end Gateway

end LightningLob
