import LightningLob.GatewayDelivery

/-! # No lane is starved

    The sweeps start one lane further each time, and each visits every lane.
    So a request with `k` others before it in its lane is handled within `k + 2`
    sweeps, however busy the other lanes are, and the consumer needs a bounded
    number of its own steps for that. -/

namespace LightningLob

namespace Gateway

/-! ## Section 1: Sweeps -/

/-- Whether the sweep in progress has visited a lane. -/
def visited (lane : Nat) (evs : List Event) : Nat :=
  if lane ∈ (log evs).current.map Prod.fst then 1 else 0

section sweeps

variable {n lane : Nat} {v v' : View} {ev : Event} {evs evs' : List Event}

theorem log_append (evs evs' : List Event) : log (evs ++ evs') = evs'.foldl Log.add (log evs) := by
  simp [log, List.foldl_append]

theorem handledOn_append (lane : Nat) (evs evs' : List Event) :
    handledOn lane (evs ++ evs') = handledOn lane evs ++ handledOn lane evs' :=
  List.filterMap_append ..

theorem acceptedOn_append (lane : Nat) (evs evs' : List Event) :
    acceptedOn lane (evs ++ evs') = acceptedOn lane evs ++ acceptedOn lane evs' :=
  List.filterMap_append ..

theorem results_append (evs evs' : List Event) :
    results (evs ++ evs') = results evs ++ results evs' :=
  List.filterMap_append ..

theorem visited_le_one (lane : Nat) (evs : List Event) : visited lane evs ≤ 1 := by
  unfold visited
  split <;> omega

/-- **Pace**: of the requests that a lane had accepted by `evs`, every visit
    since has handled one, or there were none left. -/
def Pace (lane : Nat) (evs evs' : List Event) : Prop :=
  min (acceptedOn lane evs).length
      ((handledOn lane evs).length +
        ((results evs').length + visited lane (evs ++ evs') - visited lane evs)) ≤
    (handledOn lane (evs ++ evs')).length

/-- What an event adds to the pace. -/
theorem Pace.step (hold : Pace lane evs evs')
    (hnext : (results [ev]).length + visited lane (evs ++ (evs' ++ [ev])) ≤
      visited lane (evs ++ evs') + (handledOn lane [ev]).length) :
    Pace lane evs (evs' ++ [ev]) := by
  unfold Pace at *
  rw [results_append, List.length_append, ← List.append_assoc, handledOn_append,
    List.length_append, List.append_assoc]
  omega

/-- An event that neither visits the lane nor ends a sweep keeps the pace. -/
theorem Pace.quiet (hold : Pace lane evs evs') (hresults : results [ev] = [])
    (hcurrent : lane ∈ ((log (evs ++ evs')).add ev).current.map Prod.fst →
      lane ∈ (log (evs ++ evs')).current.map Prod.fst) :
    Pace lane evs (evs' ++ [ev]) := by
  have hlog : log (evs ++ (evs' ++ [ev])) = (log (evs ++ evs')).add ev := by
    rw [← List.append_assoc, log_append]
    rfl
  apply hold.step
  rw [hresults, List.length_nil, Nat.zero_add]
  refine Nat.le_trans ?_ (Nat.le_add_right _ _)
  unfold visited
  rw [hlog]
  by_cases hmem : lane ∈ ((log (evs ++ evs')).add ev).current.map Prod.fst
  · rw [if_pos hmem, if_pos (hcurrent hmem)]
  · rw [if_neg hmem]
    exact Nat.zero_le _

/-- Every move keeps the pace. -/
theorem Moves.pace (h : Moves n v ev v') (hist : History n (evs ++ evs') v) (hlane : lane < n)
    (hold : Pace lane evs evs') : Pace lane evs (evs' ++ [ev]) := by
  cases h with
  | handled i drained request rest hpc hlt hq =>
    by_cases hl : (v.nextLane + i) % n = lane
    · -- the visit handles one of the lane's requests
      apply hold.step
      have hone :=
        visited_le_one lane (evs ++ (evs' ++ [.handled ((v.nextLane + i) % n) request]))
      have hhandled : handledOn lane [.handled ((v.nextLane + i) % n) request] = [request] := by
        simp [handledOn, hl]
      rw [hhandled]
      simp only [results, List.filterMap_cons, List.filterMap_nil, List.length_nil,
        List.length_singleton]
      omega
    · apply hold.quiet rfl
      intro hmem
      simpa [Log.add, Ne.symm hl] using hmem
  | passed i drained hpc hlt hq =>
    by_cases hl : (v.nextLane + i) % n = lane
    · -- nothing waits in the lane
      subst hl
      have hall := hist.conserved ((v.nextLane + i) % n)
      rw [hq, List.append_nil, acceptedOn_append] at hall
      have hlen := congrArg List.length hall
      rw [List.length_append] at hlen
      unfold Pace
      rw [← List.append_assoc, handledOn_append, List.length_append]
      omega
    · apply hold.quiet rfl
      intro hmem
      simpa [Log.add, Ne.symm hl] using hmem
  | polled i drained hpc hge =>
    apply hold.step
    -- the sweep that ends has visited every lane
    obtain ⟨-, hlanes, -⟩ : InProgress n (log (evs ++ evs')) (.sweep i drained) :=
      hpc ▸ hist.swept.current
    have hmem : lane ∈ (log (evs ++ evs')).current.map Prod.fst := by
      rw [hlanes, List.take_of_length_le (by simpa using hge)]
      simpa using hlane
    have hnew : visited lane (evs ++ (evs' ++ [.polled drained])) = 0 := by
      unfold visited
      rw [← List.append_assoc, log_append]
      simp [Log.add]
    rw [hnew, visited, if_pos hmem]
    simp [results]
  | _ => exact hold.quiet rfl id

end sweeps

/-! ## Section 2: The consumer's steps -/

/-- How far the loop has come since `poll_once` last returned. -/
def Consumer.position (n : Nat) : Consumer → Nat
  | .test => 0
  | .scan lane => 1 + lane
  | .done => n + 2
  | .sweep i _ => n + 2 + i

/-- The loop stays within its lanes. -/
def Consumer.InRange (n : Nat) : Consumer → Prop
  | .scan lane => lane ≤ n
  | .sweep i _ => i ≤ n
  | _ => True

section steps

variable {capacity : Capacity} {n : Nat} {s s' : State} {ev : Event}

/-- Every step of the consumer gets further. -/
theorem consumerStep_position (hs : consumerStep capacity s = some (ev, s'))
    (hn : s.gateway.lanes.length = n) (hrange : s.consumer.InRange n) :
    s'.consumer.InRange n ∧ s.consumer.position n + 1 ≤
      (results [ev]).length * (2 * n + 3) + s'.consumer.position n := by
  cases hpc : s.consumer with
  | test =>
    simp only [consumerStep, hpc] at hs
    split at hs
    · obtain ⟨rfl, rfl⟩ := Prod.mk.inj (Option.some.inj hs)
      simp [Consumer.position, Consumer.InRange, results]
    · obtain ⟨rfl, rfl⟩ := Prod.mk.inj (Option.some.inj hs)
      simp [Consumer.position, Consumer.InRange, results]
  | scan lane =>
    rw [hpc] at hrange
    have hle : lane ≤ n := hrange
    simp only [consumerStep, hpc] at hs
    split at hs
    · rename_i ring hring
      have hlt := (List.getElem?_eq_some_iff.mp hring).1
      split at hs
      · obtain ⟨rfl, rfl⟩ := Prod.mk.inj (Option.some.inj hs)
        simp only [Consumer.position, Consumer.InRange]
        omega
      · obtain ⟨rfl, rfl⟩ := Prod.mk.inj (Option.some.inj hs)
        simp only [Consumer.position, Consumer.InRange]
        omega
    · obtain ⟨rfl, rfl⟩ := Prod.mk.inj (Option.some.inj hs)
      refine ⟨trivial, ?_⟩
      simp only [Consumer.position]
      omega
  | sweep i drained =>
    rw [hpc] at hrange
    have hle : i ≤ n := hrange
    simp only [consumerStep, hpc] at hs
    split at hs
    · rename_i hlt
      obtain ⟨⟨lane, request, gateway⟩, -, hs⟩ := Option.bind_eq_some_iff.mp hs
      cases request with
      | none =>
        obtain ⟨rfl, rfl⟩ := Prod.mk.inj (Option.some.inj hs)
        simp only [Consumer.position, Consumer.InRange]
        omega
      | some request =>
        obtain ⟨rfl, rfl⟩ := Prod.mk.inj (Option.some.inj hs)
        simp only [Consumer.position, Consumer.InRange]
        omega
    · obtain ⟨rfl, rfl⟩ := Prod.mk.inj (Option.some.inj hs)
      refine ⟨trivial, ?_⟩
      simp only [Consumer.position, results, List.filterMap_cons, List.filterMap_nil,
        List.length_singleton]
      omega
  | done => simp [consumerStep, hpc] at hs

/-- Every step, whoever takes it. -/
theorem step_position {a : Action} (hs : step capacity s a = some (ev, s'))
    (hn : s.gateway.lanes.length = n) (hrange : s.consumer.InRange n) :
    s'.consumer.InRange n ∧ s.consumer.position n + [a].count .consumer ≤
      (results [ev]).length * (2 * n + 3) + s'.consumer.position n := by
  cases a with
  | submit lane request =>
    simp only [step] at hs
    split at hs
    · obtain ⟨⟨accepted, gateway⟩, -, hs⟩ := Option.bind_eq_some_iff.mp hs
      obtain ⟨-, rfl⟩ := Prod.mk.inj (Option.some.inj hs)
      exact ⟨hrange, Nat.le_add_left _ _⟩
    · cases hs
  | finish lane =>
    simp only [step] at hs
    split at hs
    · obtain ⟨-, rfl⟩ := Prod.mk.inj (Option.some.inj hs)
      exact ⟨hrange, Nat.le_add_left _ _⟩
    · cases hs
  | consumer => exact consumerStep_position hs hn hrange

theorem position_le {consumer : Consumer} (h : consumer.InRange n) :
    consumer.position n ≤ 2 * n + 2 := by
  cases consumer with
  | test => simp [Consumer.position]
  | done =>
    simp only [Consumer.position]
    omega
  | scan lane =>
    have hle : lane ≤ n := h
    simp only [Consumer.position]
    omega
  | sweep i drained =>
    have hle : i ≤ n := h
    simp only [Consumer.position]
    omega

end steps

/-! ## Section 3: Every run -/

/-- What holds of the events and the state between two steps. -/
def Kept (capacity : Capacity) (n : Nat) (evs : List Event) (s : State) : Prop :=
  s.consumer.InRange n ∧
    ∃ queues, Rep capacity n s queues ∧ History n evs (s.view queues)

/-- Since the state `s` with the history `evs`, the consumer took as many steps
    as are in `actions`. -/
structure Since (capacity : Capacity) (n lane : Nat) (evs : List Event) (s : State)
    (actions : List Action) (evs' : List Event) (s' : State) : Prop where
  kept : Kept capacity n (evs ++ evs') s'
  pace : Pace lane evs evs'
  steps : s.consumer.position n + actions.count .consumer ≤
    (results evs').length * (2 * n + 3) + s'.consumer.position n

section runs

variable {capacity : Capacity} {n lane : Nat} {evs evs' : List Event} {s s' s'' : State}
  {actions : List Action} {a : Action} {ev : Event}

theorem Kept.step (h : Kept capacity n evs s) (hs : step capacity s a = some (ev, s')) :
    Kept capacity n (evs ++ [ev]) s' := by
  obtain ⟨hrange, queues, hrep, hist⟩ := h
  obtain ⟨queues', hrep', hmoves⟩ := hrep.step hs
  exact ⟨(step_position hs hrep.lanes hrange).1, queues', hrep', hmoves.history hist⟩

theorem Since.start (h : Kept capacity n evs s) : Since capacity n lane evs s [] [] s where
  kept := by rwa [List.append_nil]
  pace := by
    unfold Pace
    simp [results]
  steps := by simp [results]

theorem Since.step (h : Since capacity n lane evs s actions evs' s') (hlane : lane < n)
    (hs : step capacity s' a = some (ev, s'')) :
    Since capacity n lane evs s (actions ++ [a]) (evs' ++ [ev]) s'' := by
  obtain ⟨hrange, queues, hrep, hist⟩ := h.kept
  obtain ⟨queues', -, hmoves⟩ := hrep.step hs
  have hstep := (step_position hs hrep.lanes hrange).2
  have hsteps := h.steps
  refine ⟨?_, hmoves.pace hist hlane h.pace, ?_⟩
  · rw [← List.append_assoc]
    exact h.kept.step hs
  · rw [List.count_append, results_append, List.length_append, Nat.add_mul]
    omega

/-- A lane where a request waits exists. -/
theorem Kept.lane_lt (h : Kept capacity n evs s)
    (hwaits : (handledOn lane evs).length < (acceptedOn lane evs).length) : lane < n := by
  obtain ⟨-, queues, -, hist⟩ := h
  by_contra hge
  have hall := hist.conserved lane
  rw [hist.bounded.outside lane (Nat.not_lt.mp hge), List.append_nil] at hall
  rw [hall] at hwaits
  exact Nat.lt_irrefl _ hwaits

end runs

/-- **No lane is starved**: a request with `k` others before it in its lane is
    handled by the time the consumer has taken `(k + 2) * (2 * n + 3)` more
    steps, whatever the producers do meanwhile. -/
theorem no_lane_starves (capacity : Capacity) (n : Nat) (before after : List Action)
    (evs evs' : List Event) (s s' : State) (lane k : Nat)
    (hbefore : Runs.exec (step capacity) (start capacity n) before = some (evs, s))
    (hafter : Runs.exec (step capacity) s after = some (evs', s'))
    (hwaits : (handledOn lane evs).length + k < (acceptedOn lane evs).length)
    (hsteps : (k + 2) * (2 * n + 3) ≤ after.count .consumer) :
    (handledOn lane evs).length + k < (handledOn lane (evs ++ evs')).length := by
  have hkept : Kept capacity n evs s :=
    Runs.exec_invariant (P := Kept capacity n) (fun _ _ _ _ _ h hs => h.step hs) before []
      (start capacity n) ⟨trivial, _, rep_start, history_start⟩ hbefore
  have hlane : lane < n := hkept.lane_lt (by omega)
  have hsince : Since capacity n lane evs s after evs' s' :=
    Runs.exec_traced (P := Since capacity n lane evs s) (fun _ _ _ _ _ _ h hs => h.step hlane hs)
      after [] [] s (.start hkept) hafter
  -- enough sweeps have ended
  have hended : k + 2 ≤ (results evs').length := by
    have hcount := hsince.steps
    have hpos := position_le hsince.kept.1
    by_contra hlt
    have hmul : ((results evs').length + 1) * (2 * n + 3) ≤ (k + 2) * (2 * n + 3) :=
      Nat.mul_le_mul_right _ (by omega)
    rw [Nat.add_mul] at hmul
    omega
  have hpace := hsince.pace
  have hone := visited_le_one lane evs
  unfold Pace at hpace
  omega

/-- Two lanes.  The first producer keeps submitting, and the request in the
    second lane is handled all the same. -/
theorem no_lane_starves_busy_neighbour :
    ∃ evs evs' : List Event, (acceptedOn 1 evs).length = 1 ∧ handledOn 1 evs = [] ∧
      (acceptedOn 0 (evs ++ evs')).length = 3 ∧ 0 < (handledOn 1 (evs ++ evs')).length := by
  obtain ⟨evs, s, hbefore⟩ : ∃ evs s, Runs.exec (step ⟨2, by decide, by decide⟩)
      (start ⟨2, by decide, by decide⟩ 2)
      [.submit 0 { quantity := 5 }, .submit 1 { quantity := 8 }] = some (evs, s) := ⟨_, _, rfl⟩
  obtain ⟨evs', s', hafter⟩ : ∃ evs' s', Runs.exec (step ⟨2, by decide, by decide⟩) s
      ([.consumer, .consumer, .submit 0 { quantity := 6 }] ++ List.replicate 5 .consumer ++
        [.submit 0 { quantity := 7 }] ++ List.replicate 7 .consumer) = some (evs', s') := by
    obtain ⟨rfl, rfl⟩ := Prod.mk.inj (Option.some.inj hbefore)
    exact ⟨_, _, rfl⟩
  obtain ⟨haccepted, hhandled⟩ := Runs.exec_any (P := fun evs _ =>
    (acceptedOn 1 evs).length = 1 ∧ handledOn 1 evs = []) hbefore (by decide)
  have hbusy := Runs.exec_any (P := fun evs _ => (acceptedOn 0 evs).length = 3)
    (Runs.exec_append hbefore hafter) (by decide)
  have hserved := no_lane_starves _ 2 _ _ evs evs' s s' 1 0 hbefore hafter
    (by rw [haccepted, hhandled]; decide) (by decide)
  exact ⟨evs, evs', haccepted, hhandled, hbusy, Nat.zero_lt_of_lt hserved⟩

end Gateway

end LightningLob
