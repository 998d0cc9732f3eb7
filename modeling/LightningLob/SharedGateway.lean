import LightningLob.GatewayDelivery
import LightningLob.QueueLanes

/-! # The gateway between its threads (`main.cpp`, `order_gateway.hpp`)

    The multi-threaded demo, access by access: every producer thread submits
    its requests, each until its lane takes it, and counts itself out; the
    matching thread polls until nobody is left and every lane is empty.  The
    lanes and the counter are in memory that all share, and loads may lag
    behind.  What a request is handled with is a parameter. -/

namespace LightningLob

open ReleaseAcquire

namespace SharedGateway

/-! ## Section 1: Threads and memory -/

inductive Thread where
  | producer (lane : Nat)
  /-- The matching thread. -/
  | matcher
  deriving DecidableEq, Repr

inductive Location where
  | write (lane : Nat)
  | read (lane : Nat)
  /-- `producers_remaining`. -/
  | remaining
  deriving DecidableEq, Repr

abbrev SharedMemory : Type := Memory Thread Location (Nat × Nat) Nat OrderRequest

def lane (p : Nat) : Lane Thread Location (Nat × Nat) where
  producer := .producer p
  consumer := .matcher
  writeIdx := .write p
  readIdx := .read p
  slot := fun x => (p, x)
  parties_ne := by simp
  indices_ne := by simp
  slot_injective := fun _ _ h => (Prod.mk.inj h).2

/-- The memory orders of the accesses to `producers_remaining`. -/
structure CounterOrders where
  /-- `fetch_sub`. -/
  sub : MemoryOrder
  /-- `load`. -/
  load : MemoryOrder
  deriving DecidableEq, Repr

/-- The orders in `main.cpp`. -/
def CounterOrders.source : CounterOrders := ⟨.release, .acquire⟩

/-- The load acquires what `fetch_sub` releases. -/
structure CounterOrders.Synchronize (orders : CounterOrders) : Prop where
  sub : orders.sub.releases
  load : orders.load.acquires

theorem CounterOrders.synchronize_source : CounterOrders.source.Synchronize := ⟨rfl, rfl⟩

/-- A producer thread. -/
structure Producer where
  /-- The requests that are not accepted, from the one being submitted on. -/
  todo : List OrderRequest
  call : Spsc.Producer OrderRequest := .idle
  finished : Bool := false
  deriving DecidableEq, Repr

/-- Where the matching thread is in its loop. -/
inductive Consumer where
  /-- About to load `producers_remaining`. -/
  | test
  /-- In `all_lanes_empty`, about to load the `read_idx_` of a lane. -/
  | scan (lane : Nat)
  /-- There, with `read_idx_` loaded. -/
  | compare (lane read : Nat)
  /-- In `poll_once`, at a round, with its local `drained`, in `try_pop`. -/
  | sweep (i drained : Nat) (call : Spsc.Consumer OrderRequest)
  | done
  deriving DecidableEq, Repr

/-- The system, with the state `engine` that the handler works on. -/
structure State (σ : Type) where
  memory : SharedMemory
  threads : Nat → Producer
  nextLane : Nat := 0
  consumer : Consumer := .test
  processed : Nat := 0
  engine : σ

/-- Who moves next, and which store its load returns. -/
inductive Action where
  | producer (lane pos : Nat)
  | matcher (pos : Nat)
  deriving DecidableEq, Repr

open Gateway (Event)

variable {σ : Type} (capacity : Capacity) (orders : CounterOrders)
  (handle : σ → OrderRequest → Run σ)

/-- Before the threads start: `n` producers, with the requests of each. -/
def start (n : Nat) (requests : Nat → List OrderRequest) (engine : σ) : State σ where
  memory := .initial (fun l => if l = .remaining then n else 0) fun _ => {}
  threads := fun p => { todo := requests p }
  engine := engine

/-! ## Section 2: The accesses -/

/-- What a producer's access shows. -/
def producerEvent (p : Nat) (request : OrderRequest) : Spsc.Event OrderRequest → Event
  | .pushed request => .accepted p request
  | .full => .refused p request
  | _ => .silent

/-- The next access of a producer: it submits until there is nothing left, and
    then does `producers_remaining.fetch_sub`. -/
def producerStep (s : State σ) (p pos : Nat) : Run (Event × State σ) :=
  let thread := s.threads p
  if thread.finished then
    none
  else
    match thread.call, thread.todo with
    | .idle, [] => do
        let m ← s.memory.modify (.producer p) orders.sub .remaining (· - 1)
        pure (.finished p, { s with
          memory := m
          threads := Function.update s.threads p { thread with finished := true } })
    | .idle, request :: _ => do
        let (m, call) ← (lane p).beginPush capacity s.memory request pos
        pure (.silent, { s with
          memory := m
          threads := Function.update s.threads p { thread with call := call } })
    | call, request :: rest => do
        let (ev, m, call) ← (lane p).producerStep .source s.memory pos call
        let todo := if ev = .pushed request then rest else request :: rest
        pure (producerEvent p request ev, { s with
          memory := m
          threads := Function.update s.threads p { thread with todo := todo, call := call } })
    | _, [] => none

/-- The next access of the matching thread, with `n` lanes. -/
def matcherStep (n : Nat) (s : State σ) (pos : Nat) : Run (Event × State σ) :=
  match s.consumer with
  | .test => do
      let (remaining, m) ← s.memory.load .matcher orders.load .remaining pos
      let consumer := if remaining > 0 then .sweep 0 0 .idle else .scan 0
      pure (.silent, { s with memory := m, consumer := consumer })
  | .scan p =>
      if p < n then do
        let (read, m) ← s.memory.load .matcher .acquire (.read p) pos
        pure (.silent, { s with memory := m, consumer := .compare p read })
      else
        pure (.exited, { s with consumer := .done })
  | .compare p read => do
      let (write, m) ← s.memory.load .matcher .acquire (.write p) pos
      let consumer := if read = write then .scan (p + 1) else .sweep 0 0 .idle
      pure (.silent, { s with memory := m, consumer := consumer })
  | .sweep i drained call =>
      if i < n then
        let p := (s.nextLane + i) % n
        match call with
        | .idle => do
            let (m, call) ← (lane p).beginPop s.memory pos
            pure (.silent, { s with memory := m, consumer := .sweep i drained call })
        | call => do
            let (ev, m, call) ← (lane p).consumerStep capacity .source s.memory pos call
            match ev with
            | .popped request => do
                let engine ← handle s.engine request
                pure (.handled p request, { s with
                  memory := m
                  consumer := .sweep (i + 1) (drained + 1) call
                  engine := engine })
            | .empty =>
                pure (.passed p, { s with memory := m, consumer := .sweep (i + 1) drained call })
            | _ => pure (.silent, { s with memory := m, consumer := .sweep i drained call })
      else
        pure (.polled drained, { s with
          nextLane := if 0 < n then (s.nextLane + 1) % n else s.nextLane
          consumer := .test
          processed := s.processed + drained })
  | .done => none

/-- One access of one of `n` producers or of the matching thread. -/
def step (n : Nat) (s : State σ) : Action → Run (Event × State σ)
  | .producer p pos => if p < n then producerStep capacity orders s p pos else none
  | .matcher pos => matcherStep capacity orders handle n s pos

/-- The `try_pop` in progress on a lane. -/
def State.popping (n : Nat) (s : State σ) (p : Nat) : Spsc.Consumer OrderRequest :=
  match s.consumer with
  | .sweep i _ call => if (s.nextLane + i) % n = p then call else .idle
  | _ => .idle

/-- The request that the `try_pop` in progress is about to return. -/
def State.taken? (s : State σ) : Option OrderRequest :=
  match s.consumer with
  | .sweep _ _ (.taken request _) => some request
  | _ => none

/-- The next access to a slot of a lane is a data race. -/
def State.Racing (n : Nat) (s : State σ) : Prop :=
  ∃ p, (lane p).Racing s.memory (s.threads p).call (s.popping n p)

end SharedGateway

end LightningLob
