import LightningLob.OrderGateway
import LightningLob.SpscQueue
import Mathlib.Data.List.Rotate
import Mathlib.Logic.Function.Basic

/-! # The gateway delivers every accepted request once, in order

    The lanes are seen as FIFO queues, and every step of the producers and of
    the drain loop as a move on them.  What the history says of the queues is
    then carried from move to move. -/

namespace LightningLob

namespace Gateway

/-! ## Section 1: The lanes as queues -/

/-- The gateway and its users, with a queue for each lane. -/
structure View where
  queues : Nat → List OrderRequest
  running : List Bool
  remaining : Int
  nextLane : Nat
  consumer : Consumer

/-- What each event means for the queues of `n` lanes. -/
inductive Moves (n : Nat) (v : View) : Event → View → Prop where
  | accepted (lane : Nat) (request : OrderRequest) (hrun : v.running[lane]? = some true) :
      Moves n v (.accepted lane request)
        { v with queues := Function.update v.queues lane (v.queues lane ++ [request]) }
  | refused (lane : Nat) (request : OrderRequest) : Moves n v (.refused lane request) v
  | finished (lane : Nat) (hrun : v.running[lane]? = some true) :
      Moves n v (.finished lane)
        { v with running := v.running.set lane false, remaining := v.remaining - 1 }
  | busy (hpc : v.consumer = .test) : Moves n v .silent { v with consumer := .sweep 0 0 }
  | deserted (hpc : v.consumer = .test) (hnone : v.remaining ≤ 0) :
      Moves n v .silent { v with consumer := .scan 0 }
  | vacant (lane : Nat) (hpc : v.consumer = .scan lane) (hempty : v.queues lane = []) :
      Moves n v .silent { v with consumer := .scan (lane + 1) }
  | waiting (lane : Nat) (hpc : v.consumer = .scan lane) :
      Moves n v .silent { v with consumer := .sweep 0 0 }
  | exited (lane : Nat) (hpc : v.consumer = .scan lane) (hge : n ≤ lane) :
      Moves n v .exited { v with consumer := .done }
  | handled (i drained : Nat) (request : OrderRequest) (rest : List OrderRequest)
      (hpc : v.consumer = .sweep i drained) (hlt : i < n)
      (hq : v.queues ((v.nextLane + i) % n) = request :: rest) :
      Moves n v (.handled ((v.nextLane + i) % n) request)
        { v with
          queues := Function.update v.queues ((v.nextLane + i) % n) rest
          consumer := .sweep (i + 1) (drained + 1) }
  | passed (i drained : Nat) (hpc : v.consumer = .sweep i drained) (hlt : i < n)
      (hq : v.queues ((v.nextLane + i) % n) = []) :
      Moves n v (.passed ((v.nextLane + i) % n)) { v with consumer := .sweep (i + 1) drained }
  | polled (i drained : Nat) (hpc : v.consumer = .sweep i drained) (hge : n ≤ i) :
      Moves n v (.polled drained)
        { v with
          nextLane := if 0 < n then (v.nextLane + 1) % n else v.nextLane
          consumer := .test }

def State.view (s : State) (queues : Nat → List OrderRequest) : View :=
  ⟨queues, s.running, s.producersRemaining, s.gateway.nextLane, s.consumer⟩

/-- The lanes of the state hold the queues. -/
structure Rep (capacity : Capacity) (n : Nat) (s : State) (queues : Nat → List OrderRequest) :
    Prop where
  lanes : s.gateway.lanes.length = n
  producers : s.running.length = n
  rings : ∀ (lane : Nat) (ring : SpscRingBuffer OrderRequest),
    s.gateway.lanes[lane]? = some ring → ring.Rep capacity (queues lane)

section refinement

variable {capacity : Capacity} {n : Nat} {s s' : State} {queues : Nat → List OrderRequest}
  {ev : Event}

theorem Rep.ring (h : Rep capacity n s queues) {lane : Nat} (hlane : lane < n) :
    ∃ ring, s.gateway.lanes[lane]? = some ring ∧ ring.Rep capacity (queues lane) := by
  rw [← h.lanes] at hlane
  have hring := List.getElem?_eq_getElem hlane
  exact ⟨_, hring, h.rings lane _ hring⟩

/-- A lane that is written back holds its new queue, and the others theirs. -/
theorem Rep.set (h : Rep capacity n s queues) {lane : Nat} {ring : SpscRingBuffer OrderRequest}
    {q : List OrderRequest} (hring : ring.Rep capacity q) (consumer : Consumer) :
    Rep capacity n
      { s with
        gateway := { s.gateway with lanes := s.gateway.lanes.set lane ring }
        consumer := consumer }
      (Function.update queues lane q) where
  lanes := by simpa using h.lanes
  producers := h.producers
  rings := by
    intro l r hr
    by_cases hl : l = lane
    · subst hl
      rw [List.getElem?_set] at hr
      split at hr
      · split at hr
        · obtain rfl := Option.some.inj hr
          rw [Function.update_self]
          exact hring
        · cases hr
      · contradiction
    · rw [List.getElem?_set_ne (Ne.symm hl)] at hr
      rw [Function.update_of_ne hl]
      exact h.rings l r hr

/-- A step of the consumer that touches no lane. -/
theorem Rep.goto (h : Rep capacity n s queues) (consumer : Consumer) :
    Rep capacity n { s with consumer := consumer } queues :=
  ⟨h.lanes, h.producers, h.rings⟩

/-- `submit` on a lane that exists, accepted or refused by its queue. -/
theorem Rep.submit (h : Rep capacity n s queues) {lane : Nat}
    (hrun : s.running[lane]? = some true) (request : OrderRequest) :
    ∃ ev s' queues', Gateway.step capacity s (.submit lane request) = some (ev, s') ∧
      Rep capacity n s' queues' ∧ Moves n (s.view queues) ev (s'.view queues') := by
  have hlane : lane < n := by
    rw [← h.producers]
    exact (List.getElem?_eq_some_iff.mp hrun).1
  obtain ⟨ring, hring, hrep⟩ := h.ring hlane
  rcases hrep.tryPush request with ⟨-, hpush⟩ | ⟨ring', -, hpush, hrep'⟩
  · refine ⟨.refused lane request, _, Function.update queues lane (queues lane), ?_,
      h.set hrep s.consumer, ?_⟩
    · simp [Gateway.step, hrun, OrderGateway.submit, hring, hpush]
    · rw [Function.update_eq_self]
      exact .refused lane request
  · refine ⟨.accepted lane request, _, _, ?_, h.set hrep' s.consumer,
      .accepted lane request hrun⟩
    simp [Gateway.step, hrun, OrderGateway.submit, hring, hpush]

/-- A round of a sweep pops the lane it visits, unless it is empty. -/
theorem Rep.visit (h : Rep capacity n s queues) {i drained : Nat}
    (hpc : s.consumer = .sweep i drained) (hlt : i < n) :
    ∃ ev s' queues', consumerStep capacity s = some (ev, s') ∧ Rep capacity n s' queues' ∧
      Moves n (s.view queues) ev (s'.view queues') := by
  have hlane : (s.gateway.nextLane + i) % n < n := Nat.mod_lt _ (by omega)
  obtain ⟨ring, hring, hrep⟩ := h.ring hlane
  have hlanes := h.lanes
  rcases hrep.tryPop with ⟨hempty, hpop⟩ | ⟨request, rest, ring', hq, hpop, hrep'⟩
  · refine ⟨.passed ((s.gateway.nextLane + i) % n), _,
      Function.update queues ((s.gateway.nextLane + i) % n)
        (queues ((s.gateway.nextLane + i) % n)), ?_,
      h.set hrep (.sweep (i + 1) drained), ?_⟩
    · simp [consumerStep, hpc, hlanes, hlt, OrderGateway.pollLane, hring, hpop]
    · rw [Function.update_eq_self]
      exact .passed i drained hpc hlt hempty
  · refine ⟨.handled ((s.gateway.nextLane + i) % n) request, _,
      Function.update queues ((s.gateway.nextLane + i) % n) rest, ?_,
      h.set hrep' (.sweep (i + 1) (drained + 1)),
      .handled i drained request rest hpc hlt hq⟩
    simp [consumerStep, hpc, hlanes, hlt, OrderGateway.pollLane, hring, hpop]

/-- The consumer's steps, and that it is never stuck before it is done. -/
theorem Rep.consumerStep (h : Rep capacity n s queues) (hpc : s.consumer ≠ .done) :
    ∃ ev s' queues', Gateway.consumerStep capacity s = some (ev, s') ∧
      Rep capacity n s' queues' ∧ Moves n (s.view queues) ev (s'.view queues') := by
  cases hc : s.consumer with
  | test =>
    by_cases hmore : s.producersRemaining > 0
    · refine ⟨.silent, { s with consumer := .sweep 0 0 }, queues, ?_, h.goto _, .busy hc⟩
      simp [Gateway.consumerStep, hc, hmore]
    · refine ⟨.silent, { s with consumer := .scan 0 }, queues, ?_, h.goto _,
        .deserted hc (Int.not_lt.mp hmore)⟩
      simp [Gateway.consumerStep, hc, hmore]
  | scan lane =>
    by_cases hlt : lane < n
    · obtain ⟨ring, hring, hrep⟩ := h.ring hlt
      cases hempty : ring.empty with
      | true =>
        refine ⟨.silent, { s with consumer := .scan (lane + 1) }, queues, ?_, h.goto _,
          .vacant lane hc (hrep.empty_eq.mp hempty)⟩
        simp [Gateway.consumerStep, hc, hring, hempty]
      | false =>
        refine ⟨.silent, { s with consumer := .sweep 0 0 }, queues, ?_, h.goto _,
          .waiting lane hc⟩
        simp [Gateway.consumerStep, hc, hring, hempty]
    · -- past the last lane
      have hnone : s.gateway.lanes[lane]? = none :=
        List.getElem?_eq_none (by rw [h.lanes]; omega)
      refine ⟨.exited, { s with consumer := .done }, queues, ?_, h.goto _,
        .exited lane hc (by omega)⟩
      simp [Gateway.consumerStep, hc, hnone]
  | sweep i drained =>
    by_cases hlt : i < n
    · exact h.visit hc hlt
    · have hlanes := h.lanes
      have hrot : s.gateway.rotated = { s.gateway with
          nextLane := if 0 < n then (s.gateway.nextLane + 1) % n else s.gateway.nextLane } := by
        unfold OrderGateway.rotated
        rw [hlanes]
        split <;> rfl
      refine ⟨.polled drained, { s with gateway := s.gateway.rotated, consumer := .test }, queues,
        ?_, ?_, ?_⟩
      · simp [Gateway.consumerStep, hc, hlanes, hlt]
      · rw [hrot]
        exact ⟨h.lanes, h.producers, h.rings⟩
      · rw [hrot]
        exact .polled i drained hc (by omega)
  | done => exact (hpc hc).elim

/-- **One step** moves the queues. -/
theorem Rep.step (h : Rep capacity n s queues) {a : Action}
    (hs : Gateway.step capacity s a = some (ev, s')) :
    ∃ queues', Rep capacity n s' queues' ∧ Moves n (s.view queues) ev (s'.view queues') := by
  cases a with
  | submit lane request =>
    have hrun : s.running[lane]? = some true := by
      by_contra hc
      simp [Gateway.step, hc] at hs
    obtain ⟨ev₁, s₁, queues', hs₁, hrep, hmoves⟩ := h.submit hrun request
    obtain ⟨rfl, rfl⟩ := Prod.mk.inj (Option.some.inj (hs₁.symm.trans hs))
    exact ⟨queues', hrep, hmoves⟩
  | finish lane =>
    simp only [Gateway.step] at hs
    split at hs
    · rename_i hrun
      obtain ⟨rfl, rfl⟩ := Prod.mk.inj (Option.some.inj hs)
      refine ⟨queues, ⟨h.lanes, ?_, h.rings⟩, .finished lane hrun⟩
      rw [List.length_set]
      exact h.producers
    · cases hs
  | consumer =>
    have hpc : s.consumer ≠ .done := by
      intro hc
      simp [Gateway.step, Gateway.consumerStep, hc] at hs
    obtain ⟨ev₁, s₁, queues', hs₁, hrep, hmoves⟩ := h.consumerStep hpc
    obtain ⟨rfl, rfl⟩ := Prod.mk.inj (Option.some.inj (hs₁.symm.trans hs))
    exact ⟨queues', hrep, hmoves⟩

end refinement

/-! ## Section 2: What the history says of the queues -/

/-- The requests accepted on a lane. -/
def acceptedOn (lane : Nat) (evs : List Event) : List OrderRequest :=
  evs.filterMap fun
    | .accepted l request => if l = lane then some request else none
    | _ => none

/-- The requests from a lane that the handler was called with. -/
def handledOn (lane : Nat) (evs : List Event) : List OrderRequest :=
  evs.filterMap fun
    | .handled l request => if l = lane then some request else none
    | _ => none

/-- What the calls of `poll_once` returned. -/
def results (evs : List Event) : List Nat :=
  evs.filterMap fun
    | .polled drained => some drained
    | _ => none

/-- What the sweep in progress has drained. -/
def Consumer.drained : Consumer → Nat
  | .sweep _ drained => drained
  | _ => 0

/-- A call of `poll_once`: the lanes it visited with what it handled there, and
    its result. -/
structure Sweep where
  visits : List (Nat × Option OrderRequest)
  drained : Nat
  deriving DecidableEq, Repr

/-- The sweeps that returned, and the visits of the one in progress. -/
structure Log where
  sweeps : List Sweep := []
  current : List (Nat × Option OrderRequest) := []
  deriving DecidableEq, Repr

def Log.add (log : Log) : Event → Log
  | .handled lane request => { log with current := log.current ++ [(lane, some request)] }
  | .passed lane => { log with current := log.current ++ [(lane, none)] }
  | .polled drained => { sweeps := log.sweeps ++ [⟨log.current, drained⟩], current := [] }
  | _ => log

def log (evs : List Event) : Log := evs.foldl Log.add {}

/-- The sweep with number `k` visits every lane once, from lane `k` modulo the
    lanes on, and returns how many requests it handled. -/
structure Sweep.Complete (n k : Nat) (sweep : Sweep) : Prop where
  lanes : sweep.visits.map Prod.fst = (List.range n).rotate k
  result : sweep.drained = sweep.visits.countP fun x => x.2.isSome

section histories

variable {n : Nat} {v v' : View} {ev : Event} {evs : List Event}

/-- Each lane's queue is what it accepted and the handler has not seen. -/
def Conserved (evs : List Event) (v : View) : Prop :=
  ∀ lane, acceptedOn lane evs = handledOn lane evs ++ v.queues lane

theorem Moves.conserved (h : Moves n v ev v') (hold : Conserved evs v) :
    Conserved (evs ++ [ev]) v' := by
  intro lane
  have hlane := hold lane
  unfold acceptedOn handledOn at *
  rw [List.filterMap_append, List.filterMap_append, hlane]
  cases h with
  | accepted l request hrun =>
    by_cases hl : l = lane
    · subst hl
      simp
    · simp [hl, Function.update_of_ne (Ne.symm hl)]
  | handled i drained request rest hpc hlt hq =>
    by_cases hl : (v.nextLane + i) % n = lane
    · subst hl
      simp [hq]
    · simp [hl, Function.update_of_ne (Ne.symm hl)]
  | _ => simp

/-- The results so far, with the sweep in progress, are the handler's calls. -/
def Counted (evs : List Event) (v : View) : Prop :=
  (results evs).sum + v.consumer.drained = (handlerCalls evs).length

theorem Moves.counted (h : Moves n v ev v') (hold : Counted evs v) : Counted (evs ++ [ev]) v' := by
  unfold Counted results handlerCalls at *
  rw [List.filterMap_append, List.filterMap_append, List.sum_append, List.length_append, ← hold]
  cases h with
  | accepted | refused | finished => simp
  | busy hpc | deserted hpc => simp [Consumer.drained, hpc]
  | vacant _ hpc | waiting _ hpc | exited _ hpc => simp [Consumer.drained, hpc]
  | passed _ _ hpc | polled _ _ hpc => simp [Consumer.drained, hpc]
  | handled _ _ _ _ hpc =>
    simp only [Consumer.drained, hpc, List.filterMap_cons, List.filterMap_nil, List.sum_nil,
      List.length_singleton]
    omega

/-- The counter counts the producers that still run, and lanes that do not
    exist are empty. -/
structure Bounded (n : Nat) (v : View) : Prop where
  producers : v.running.length = n
  remaining : v.remaining = v.running.count true
  outside : ∀ lane, n ≤ lane → v.queues lane = []

theorem lane_lt_of_running (h : Bounded n v) {lane : Nat} (hrun : v.running[lane]? = some true) :
    lane < n := by
  rw [← h.producers]
  exact (List.getElem?_eq_some_iff.mp hrun).1

theorem Moves.bounded (h : Moves n v ev v') (hold : Bounded n v) : Bounded n v' := by
  cases h with
  | accepted lane request hrun =>
    refine ⟨hold.producers, hold.remaining, ?_⟩
    intro l hl
    have hlane := lane_lt_of_running hold hrun
    simp only
    rw [Function.update_of_ne (by omega)]
    exact hold.outside l hl
  | refused | busy | deserted | vacant | waiting | exited | passed | polled =>
    exact ⟨hold.producers, hold.remaining, hold.outside⟩
  | finished lane hrun =>
    obtain ⟨hlt, hget⟩ := List.getElem?_eq_some_iff.mp hrun
    have hpos : 0 < v.running.count true := List.count_pos_iff.mpr (List.mem_of_getElem? hrun)
    refine ⟨by simpa using hold.producers, ?_, hold.outside⟩
    simp only
    rw [List.count_set hlt, hget, hold.remaining]
    simp only [BEq.rfl, if_true]
    rw [if_neg (by decide)]
    omega
  | handled i drained request rest hpc hlt hq =>
    refine ⟨hold.producers, hold.remaining, ?_⟩
    intro l hl
    have hlane : (v.nextLane + i) % n < n := Nat.mod_lt _ (by omega)
    simp only
    rw [Function.update_of_ne (by omega)]
    exact hold.outside l hl

/-- Once the scan began, no producer runs, so that a lane found empty stays
    so. -/
def Leaving (v : View) : Prop :=
  match v.consumer with
  | .scan lane => v.running.count true = 0 ∧ ∀ l < lane, v.queues l = []
  | .done => v.running.count true = 0 ∧ ∀ l, v.queues l = []
  | _ => True

/-- While a producer runs, the consumer is not leaving. -/
theorem Leaving.of_running {lane : Nat} (h : Leaving v) (hrun : v.running[lane]? = some true)
    {queues : Nat → List OrderRequest} {running : List Bool} {remaining : Int} {nextLane : Nat} :
    Leaving ⟨queues, running, remaining, nextLane, v.consumer⟩ := by
  have hpos : 0 < v.running.count true := List.count_pos_iff.mpr (List.mem_of_getElem? hrun)
  unfold Leaving at *
  cases hpc : v.consumer with
  | test | sweep => trivial
  | scan lane =>
    simp only [hpc] at h
    omega
  | done =>
    simp only [hpc] at h
    omega

theorem Moves.leaving (h : Moves n v ev v') (hbound : Bounded n v) (hold : Leaving v) :
    Leaving v' := by
  cases h with
  | accepted lane request hrun => exact hold.of_running hrun
  | refused => exact hold
  | finished lane hrun => exact hold.of_running hrun
  | busy | waiting | passed | handled | polled => trivial
  | deserted hpc hnone =>
    -- the counter counts the running producers
    have hcount := hbound.remaining
    exact ⟨by simp only; omega, fun l hl => absurd hl (Nat.not_lt_zero l)⟩
  | vacant lane hpc hempty =>
    unfold Leaving at hold
    simp only [hpc] at hold
    refine ⟨hold.1, ?_⟩
    intro l hl
    rcases Nat.lt_succ_iff_lt_or_eq.mp hl with hlt | rfl
    · exact hold.2 l hlt
    · exact hempty
  | exited lane hpc hge =>
    unfold Leaving at hold
    simp only [hpc] at hold
    refine ⟨hold.1, ?_⟩
    intro l
    by_cases hl : l < lane
    · exact hold.2 l hl
    · exact hbound.outside l (by omega)

/-- The sweep in progress has visited its first lanes. -/
def InProgress (n : Nat) (log : Log) : Consumer → Prop
  | .sweep i drained => i ≤ n ∧
      log.current.map Prod.fst = ((List.range n).rotate log.sweeps.length).take i ∧
      drained = log.current.countP fun x => x.2.isSome
  | _ => log.current = []

/-- The sweeps that returned are complete. -/
structure Swept (n : Nat) (log : Log) (v : View) : Prop where
  next : 0 < n → v.nextLane = log.sweeps.length % n
  complete : ∀ (k : Nat) (sweep : Sweep), log.sweeps[k]? = some sweep → sweep.Complete n k
  current : InProgress n log v.consumer

/-- The lane of round `i`. -/
theorem take_rotate_succ {i : Nat} (hi : i < n) (k : Nat) :
    ((List.range n).rotate k).take (i + 1) =
      ((List.range n).rotate k).take i ++ [(k % n + i) % n] := by
  have hget : ((List.range n).rotate k)[i]? = some ((k % n + i) % n) := by
    rw [List.getElem?_rotate (by simpa using hi), List.length_range, Nat.mod_add_mod,
      Nat.add_comm i k]
    exact List.getElem?_range (Nat.mod_lt _ (by omega))
  rw [List.take_add_one, hget]
  rfl

/-- A round adds its lane to the sweep in progress. -/
theorem Swept.visit {log : Log} (h : Swept n log v) {i drained : Nat}
    (hpc : v.consumer = .sweep i drained) (hlt : i < n) (request : Option OrderRequest) :
    InProgress n { log with current := log.current ++ [((v.nextLane + i) % n, request)] }
      (.sweep (i + 1) (drained + if request.isSome then 1 else 0)) := by
  obtain ⟨-, hlanes, hdrained⟩ : InProgress n log (.sweep i drained) := hpc ▸ h.current
  refine ⟨hlt, ?_, ?_⟩
  · rw [List.map_append, hlanes, take_rotate_succ hlt, h.next (by omega)]
    rfl
  · rw [List.countP_append, hdrained]
    simp

theorem Moves.swept (h : Moves n v ev v') (hold : Swept n (log evs) v) :
    Swept n (log (evs ++ [ev])) v' := by
  have hlog : log (evs ++ [ev]) = (log evs).add ev := by simp [log, List.foldl_append]
  have hcur := hold.current
  rw [hlog]
  cases h with
  | accepted | refused | finished => exact ⟨hold.next, hold.complete, hcur⟩
  | busy hpc | waiting _ hpc =>
    -- a new sweep has visited nothing
    rw [hpc] at hcur
    have hnil : (log evs).current = [] := hcur
    refine ⟨hold.next, hold.complete, Nat.zero_le n, ?_, ?_⟩ <;> simp [Log.add, hnil]
  | deserted hpc | vacant _ hpc | exited _ hpc =>
    rw [hpc] at hcur
    exact ⟨hold.next, hold.complete, hcur⟩
  | passed i drained hpc hlt hq => exact ⟨hold.next, hold.complete, hold.visit hpc hlt none⟩
  | handled i drained request rest hpc hlt hq =>
    exact ⟨hold.next, hold.complete, hold.visit hpc hlt (some request)⟩
  | polled i drained hpc hge =>
    obtain ⟨hle, hlanes, hdrained⟩ : InProgress n (log evs) (.sweep i drained) := hpc ▸ hcur
    have hall : ((List.range n).rotate (log evs).sweeps.length).take i =
        (List.range n).rotate (log evs).sweeps.length :=
      List.take_of_length_le (by simpa using hge)
    refine ⟨?_, ?_, rfl⟩
    · intro hpos
      simp only [Log.add, List.length_append, List.length_singleton, if_pos hpos, hold.next hpos,
        Nat.mod_add_mod]
    · intro k sweep hk
      by_cases hlt : k < (log evs).sweeps.length
      · rw [Log.add, List.getElem?_append_left hlt] at hk
        exact hold.complete k sweep hk
      · -- the sweep that returns now
        rw [Log.add, List.getElem?_append_right (Nat.not_lt.mp hlt), List.getElem?_singleton] at hk
        split at hk
        · obtain rfl := Option.some.inj hk
          obtain rfl : k = (log evs).sweeps.length := by omega
          exact ⟨hlanes.trans hall, hdrained⟩
        · cases hk

end histories

/-! ## Section 3: Every interleaving -/

/-- After the events `evs`, whoever moved when. -/
structure Delivers (capacity : Capacity) (n : Nat) (evs : List Event) (s : State) : Prop where
  /-- What is handled from a lane is the first part of what it accepted. -/
  in_order : ∀ lane, handledOn lane evs <+: acceptedOn lane evs
  /-- A visit handles the first request that waits in the lane, if any does. -/
  visits : ∀ ev s', consumerStep capacity s = some (ev, s') →
    (∀ lane request, ev = .handled lane request →
      ∃ rest, acceptedOn lane evs = handledOn lane evs ++ request :: rest) ∧
    ∀ lane, ev = .passed lane → acceptedOn lane evs = handledOn lane evs
  /-- Every sweep visits every lane once, starting one lane further each time. -/
  sweeps : ∀ (k : Nat) (sweep : Sweep), (log evs).sweeps[k]? = some sweep → sweep.Complete n k
  /-- The results add up to the handler's calls, but for the sweep in progress. -/
  total : (results evs).sum + s.consumer.drained = (handlerCalls evs).length
  /-- When the loop has exited, all that was accepted is handled. -/
  exited : s.consumer = .done → ∀ lane, handledOn lane evs = acceptedOn lane evs
  /-- Nobody gets stuck or leaves the arrays. -/
  in_range : (s.consumer ≠ .done → (step capacity s .consumer).isSome) ∧
    ∀ lane request, s.running[lane]? = some true →
      (step capacity s (.submit lane request)).isSome

section runs

variable {capacity : Capacity} {n : Nat} {evs : List Event} {s : State}
  {queues : Nat → List OrderRequest}

/-- What holds of the history and the queues between two steps. -/
structure History (n : Nat) (evs : List Event) (v : View) : Prop where
  conserved : Conserved evs v
  counted : Counted evs v
  bounded : Bounded n v
  leaving : Leaving v
  swept : Swept n (log evs) v

theorem Moves.history {v v' : View} {ev : Event} (h : Moves n v ev v') (hold : History n evs v) :
    History n (evs ++ [ev]) v' :=
  ⟨h.conserved hold.conserved, h.counted hold.counted, h.bounded hold.bounded,
    h.leaving hold.bounded hold.leaving, h.swept hold.swept⟩

theorem rep_start : Rep capacity n (start capacity n) fun _ => [] where
  lanes := by simp [start, OrderGateway.create]
  producers := by simp [start]
  rings := by
    intro lane ring hring
    obtain ⟨-, rfl⟩ : lane < n ∧ _ = ring := by
      simpa [start, OrderGateway.create, List.getElem?_replicate] using hring
    exact .create

theorem history_start : History n [] ((start capacity n).view fun _ => []) where
  conserved := fun _ => rfl
  counted := rfl
  bounded := ⟨by simp [State.view, start], by simp [State.view, start], fun _ _ => rfl⟩
  leaving := trivial
  swept := ⟨fun _ => (Nat.zero_mod n).symm, by simp [log], rfl⟩

theorem Rep.delivers (h : Rep capacity n s queues) (hist : History n evs (s.view queues)) :
    Delivers capacity n evs s where
  in_order := fun lane => ⟨queues lane, (hist.conserved lane).symm⟩
  visits := by
    intro ev s' hs
    obtain ⟨queues', -, hmoves⟩ := h.step (a := .consumer) hs
    generalize s'.view queues' = v' at hmoves
    cases hmoves with
    | handled i drained request rest hpc hlt hq =>
      refine ⟨?_, fun lane heq => by cases heq⟩
      intro lane r heq
      obtain ⟨rfl, rfl⟩ := Event.handled.inj heq
      exact ⟨rest, by rw [← hq]; exact hist.conserved _⟩
    | passed i drained hpc hlt hq =>
      refine ⟨fun lane r heq => (by cases heq), ?_⟩
      intro lane heq
      obtain rfl := Event.passed.inj heq
      rw [hist.conserved, hq, List.append_nil]
    | _ => exact ⟨fun lane r heq => (by cases heq), fun lane heq => (by cases heq)⟩
  sweeps := hist.swept.complete
  total := hist.counted
  exited := by
    intro hdone lane
    have hleaving := hist.leaving
    unfold Leaving at hleaving
    simp only [State.view, hdone] at hleaving
    have hempty : (s.view queues).queues lane = [] := hleaving.2 lane
    rw [hist.conserved lane, hempty, List.append_nil]
  in_range := by
    constructor
    · intro hpc
      obtain ⟨ev, s', queues', hs, -⟩ := h.consumerStep hpc
      exact Option.isSome_of_eq_some hs
    · intro lane request hrun
      obtain ⟨ev, s', queues', hs, -⟩ := h.submit hrun request
      exact Option.isSome_of_eq_some hs

end runs

/-- **Exactly once and in order**: for every number of producers, and in
    whatever order they submit, finish and are polled, the gateway hands over
    what it accepted, lane by lane in order, and all of it once the drain loop
    has exited. -/
theorem gateway_delivers (capacity : Capacity) (n : Nat) (actions : List Action)
    (evs : List Event) (s : State)
    (hrun : Runs.exec (step capacity) (start capacity n) actions = some (evs, s)) :
    Delivers capacity n evs s := by
  obtain ⟨queues, hrep, hist⟩ := Runs.exec_invariant
    (P := fun evs s => ∃ queues, Rep capacity n s queues ∧ History n evs (s.view queues))
    (fun evs s a ev s' ⟨queues, hrep, hist⟩ hs => by
      obtain ⟨queues', hrep', hmoves⟩ := hrep.step hs
      exact ⟨queues', hrep', hmoves.history hist⟩)
    actions [] (start capacity n) ⟨_, rep_start, history_start⟩ hrun
  exact hrep.delivers hist

/-- Two producers: the second submits and finishes while the first sweep is
    under way, which has passed its lane, and the loop goes round again. -/
theorem gateway_delivers_late_request :
    ∃ (evs : List Event) (s : State), s.consumer = .done ∧ results evs = [1, 1] ∧
      Delivers ⟨2, by decide, by decide⟩ 2 evs s := by
  obtain ⟨evs, s, hrun, hdone, hresults⟩ := Runs.exists_exec_of_any
    (step ⟨2, by decide, by decide⟩) (start ⟨2, by decide, by decide⟩ 2)
    [.submit 0 { quantity := 5 }, .consumer, .consumer, .consumer, .submit 1 { quantity := 8 },
      .finish 0, .finish 1, .consumer, .consumer, .consumer, .consumer, .consumer, .consumer,
      .consumer, .consumer, .consumer, .consumer, .consumer]
    (fun evs s => s.consumer = .done ∧ results evs = [1, 1]) (by decide)
  exact ⟨evs, s, hdone, hresults, gateway_delivers _ 2 _ evs s hrun⟩

end Gateway

end LightningLob
