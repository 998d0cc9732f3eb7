import LightningLob.SharedGatewaySteps
import Mathlib.Algebra.BigOperators.Group.Finset.Piecewise

/-! # The drain loop ends when everything is handled

    And it needs the orders of its accesses to the counter for that. -/

namespace LightningLob

open ReleaseAcquire

namespace SharedGateway

open Gateway (Event Moves acceptedOn handledOn handlerCalls results)

variable {σ : Type}

/-! ## Section 1: One access -/

/-- Everything that an access can be. -/
inductive Accesses (capacity : Capacity) (handle : σ → OrderRequest → Run σ) (n : Nat)
    (s : State σ) : Event → State σ → Prop where
  | begin (p pos : Nat) (request : OrderRequest) (rest : List OrderRequest) (m : SharedMemory)
      (call : Spsc.Producer OrderRequest) (hp : p < n) (hrunning : (s.threads p).finished = false)
      (htodo : (s.threads p).todo = request :: rest) (hidle : (s.threads p).call = .idle)
      (hs : (lane p).beginPush capacity s.memory request pos = some (m, call)) :
      Accesses capacity handle n s .silent { s with
        memory := m
        threads := Function.update s.threads p { s.threads p with call := call } }
  | submit (p pos : Nat) (request : OrderRequest) (rest : List OrderRequest) (m : SharedMemory)
      (call : Spsc.Producer OrderRequest) (ev : Spsc.Event OrderRequest) (hp : p < n)
      (hrunning : (s.threads p).finished = false) (htodo : (s.threads p).todo = request :: rest)
      (hs : (lane p).producerStep .source s.memory pos (s.threads p).call = some (ev, m, call)) :
      Accesses capacity handle n s (producerEvent p request ev) { s with
        memory := m
        threads := Function.update s.threads p { s.threads p with
          todo := if ev = .pushed request then rest else request :: rest
          call := call } }
  | finish (p : Nat) (order : MemoryOrder) (m : SharedMemory) (hp : p < n)
      (hrunning : (s.threads p).finished = false) (htodo : (s.threads p).todo = [])
      (horder : order.releases)
      (hs : s.memory.modify (.producer p) order .remaining (· - 1) = some m) :
      Accesses capacity handle n s (.finished p) { s with
        memory := m
        threads := Function.update s.threads p { s.threads p with finished := true } }
  | test (pos value : Nat) (m : SharedMemory) (hpc : s.consumer = .test)
      (hload : s.memory.load .matcher .acquire .remaining pos = some (value, m)) :
      Accesses capacity handle n s .silent { s with
        memory := m
        consumer := if value > 0 then .sweep 0 0 .idle else .scan 0 }
  | scan (p pos value : Nat) (m : SharedMemory) (hpc : s.consumer = .scan p) (hp : p < n)
      (hload : s.memory.load .matcher .acquire (.read p) pos = some (value, m)) :
      Accesses capacity handle n s .silent { s with memory := m, consumer := .compare p value }
  | exit (p : Nat) (hpc : s.consumer = .scan p) (hp : n ≤ p) :
      Accesses capacity handle n s .exited { s with consumer := .done }
  | compare (p read pos value : Nat) (m : SharedMemory) (hpc : s.consumer = .compare p read)
      (hload : s.memory.load .matcher .acquire (.write p) pos = some (value, m)) :
      Accesses capacity handle n s .silent { s with
        memory := m
        consumer := if read = value then .scan (p + 1) else .sweep 0 0 .idle }
  | visit (i drained pos : Nat) (m : SharedMemory) (call : Spsc.Consumer OrderRequest)
      (hpc : s.consumer = .sweep i drained .idle) (hlt : i < n)
      (hs : (lane ((s.nextLane + i) % n)).beginPop s.memory pos = some (m, call)) :
      Accesses capacity handle n s .silent
        { s with memory := m, consumer := .sweep i drained call }
  | popGoesOn (i drained pos : Nat) (m : SharedMemory) (call call' : Spsc.Consumer OrderRequest)
      (hpc : s.consumer = .sweep i drained call) (hlt : i < n)
      (hs : (lane ((s.nextLane + i) % n)).consumerStep capacity .source s.memory pos call =
        some (.silent, m, call')) :
      Accesses capacity handle n s .silent
        { s with memory := m, consumer := .sweep i drained call' }
  | popEmpty (i drained pos : Nat) (m : SharedMemory) (call call' : Spsc.Consumer OrderRequest)
      (hpc : s.consumer = .sweep i drained call) (hlt : i < n)
      (hs : (lane ((s.nextLane + i) % n)).consumerStep capacity .source s.memory pos call =
        some (.empty, m, call')) :
      Accesses capacity handle n s (.passed ((s.nextLane + i) % n))
        { s with memory := m, consumer := .sweep (i + 1) drained call' }
  | popValue (i drained pos : Nat) (m : SharedMemory) (call call' : Spsc.Consumer OrderRequest)
      (request : OrderRequest) (engine : σ) (hpc : s.consumer = .sweep i drained call) (hlt : i < n)
      (hs : (lane ((s.nextLane + i) % n)).consumerStep capacity .source s.memory pos call =
        some (.popped request, m, call')) (hhandle : handle s.engine request = some engine) :
      Accesses capacity handle n s (.handled ((s.nextLane + i) % n) request) { s with
        memory := m, consumer := .sweep (i + 1) (drained + 1) call', engine := engine }
  | polled (i drained : Nat) (call : Spsc.Consumer OrderRequest)
      (hpc : s.consumer = .sweep i drained call) (hge : n ≤ i) :
      Accesses capacity handle n s (.polled drained) { s with
        nextLane := if 0 < n then (s.nextLane + 1) % n else s.nextLane
        consumer := .test
        processed := s.processed + drained }

section steps

variable {capacity : Capacity} {orders : CounterOrders} {handle : σ → OrderRequest → Run σ}
  {n : Nat} {requests : Nat → List OrderRequest} {evs : List Event} {ev : Event} {s s' : State σ}
  {a : Action}

theorem accesses_of_producerStep {p pos : Nat} (horders : orders.Synchronize) (hp : p < n)
    (hs : producerStep capacity orders s p pos = some (ev, s')) :
    Accesses capacity handle n s ev s' := by
  unfold producerStep at hs
  simp only at hs
  split at hs
  · cases hs
  · rename_i hfinished
    have hrunning : (s.threads p).finished = false := by simpa using hfinished
    split at hs
    · rename_i hidle htodo
      obtain ⟨m, hmodify, hs⟩ := Option.bind_eq_some_iff.mp hs
      obtain ⟨rfl, rfl⟩ := Prod.mk.inj (Option.some.inj hs)
      exact .finish p orders.sub m hp hrunning htodo horders.sub hmodify
    · rename_i request rest hidle htodo
      obtain ⟨⟨m, call⟩, hbegin, hs⟩ := Option.bind_eq_some_iff.mp hs
      obtain ⟨rfl, rfl⟩ := Prod.mk.inj (Option.some.inj hs)
      exact .begin p pos request rest m call hp hrunning htodo hidle hbegin
    · rename_i request rest htodo hbusy
      obtain ⟨⟨sev, m, call⟩, hstep, hs⟩ := Option.bind_eq_some_iff.mp hs
      obtain ⟨rfl, rfl⟩ := Prod.mk.inj (Option.some.inj hs)
      exact .submit p pos request rest m call sev hp hrunning htodo hstep
    · cases hs

theorem accesses_of_matcherStep {pos : Nat} (horders : orders.Synchronize)
    (hs : matcherStep capacity orders handle n s pos = some (ev, s')) :
    Accesses capacity handle n s ev s' := by
  unfold matcherStep at hs
  split at hs
  · rename_i hpc
    obtain ⟨⟨value, m⟩, hload, hs⟩ := Option.bind_eq_some_iff.mp hs
    obtain ⟨rfl, rfl⟩ := Prod.mk.inj (Option.some.inj hs)
    have hacquires : _ = CounterOrders.source.load.acquires := horders.load
    rw [Memory.load_congr hacquires] at hload
    exact .test pos value m hpc hload
  · rename_i p hpc
    split at hs
    · rename_i hp
      obtain ⟨⟨value, m⟩, hload, hs⟩ := Option.bind_eq_some_iff.mp hs
      obtain ⟨rfl, rfl⟩ := Prod.mk.inj (Option.some.inj hs)
      exact .scan p pos value m hpc hp hload
    · rename_i hp
      obtain ⟨rfl, rfl⟩ := Prod.mk.inj (Option.some.inj hs)
      exact .exit p hpc (Nat.le_of_not_lt hp)
  · rename_i p read hpc
    obtain ⟨⟨value, m⟩, hload, hs⟩ := Option.bind_eq_some_iff.mp hs
    obtain ⟨rfl, rfl⟩ := Prod.mk.inj (Option.some.inj hs)
    exact .compare p read pos value m hpc hload
  · rename_i i drained call hpc
    split at hs
    · rename_i hlt
      simp only at hs
      split at hs
      · obtain ⟨⟨m, call⟩, hbegin, hs⟩ := Option.bind_eq_some_iff.mp hs
        obtain ⟨rfl, rfl⟩ := Prod.mk.inj (Option.some.inj hs)
        exact .visit i drained pos m call hpc hlt hbegin
      · obtain ⟨⟨sev, m, call'⟩, hstep, hs⟩ := Option.bind_eq_some_iff.mp hs
        simp only at hs
        split at hs
        · rename_i request
          obtain ⟨engine, hhandle, hs⟩ := Option.bind_eq_some_iff.mp hs
          obtain ⟨rfl, rfl⟩ := Prod.mk.inj (Option.some.inj hs)
          exact .popValue i drained pos m call call' request engine hpc hlt hstep hhandle
        · obtain ⟨rfl, rfl⟩ := Prod.mk.inj (Option.some.inj hs)
          exact .popEmpty i drained pos m call call' hpc hlt hstep
        · rename_i hnotPopped hnotEmpty
          obtain ⟨rfl, rfl⟩ := Prod.mk.inj (Option.some.inj hs)
          rcases Lane.consumerStep_shows hstep with ⟨-, rfl | ⟨rfl, -⟩⟩ | ⟨out, read, -, rfl, -⟩
          · exact .popGoesOn i drained pos m call call' hpc hlt hstep
          · exact absurd rfl hnotEmpty
          · exact absurd rfl (hnotPopped out)
    · rename_i hge
      obtain ⟨rfl, rfl⟩ := Prod.mk.inj (Option.some.inj hs)
      exact .polled i drained call hpc (Nat.le_of_not_lt hge)
  · cases hs

/-- A move is one of them. -/
theorem accesses_of_step (horders : orders.Synchronize)
    (hs : step capacity orders handle n s a = some (ev, s')) :
    Accesses capacity handle n s ev s' := by
  cases a with
  | producer p pos =>
    simp only [step] at hs
    split at hs
    · rename_i hp
      exact accesses_of_producerStep horders hp hs
    · cases hs
  | matcher pos => exact accesses_of_matcherStep horders hs

/-- **Each of them** keeps what is known. -/
theorem Accesses.kept (hs : Accesses capacity handle n s ev s')
    (h : Kept capacity n requests evs s) : Kept capacity n requests (evs ++ [ev]) s' := by
  cases hs with
  | begin p pos request rest m call hp hrunning htodo hidle hs =>
    exact h.begin hrunning htodo hidle hs
  | submit p pos request rest m call sev hp hrunning htodo hs =>
    exact h.submit hp hrunning htodo hs
  | finish p order m hp hrunning htodo horder hs => exact h.finish hp hrunning htodo horder hs
  | test pos value m hpc hload => exact h.test hpc hload
  | scan p pos value m hpc hp hload => exact h.scan hpc hp hload
  | exit p hpc hp =>
    have hphase : (s.view n evs).consumer = .scan p := by simp [State.view, hpc, Consumer.phase]
    exact h.internal rfl rfl (fun q => by simp [State.popping, hpc]) (fun _ => rfl) trivial
      (fun q => by simp [acceptedOn]) ((Moves.exited p hphase hp).history h.history)
  | compare p read pos value m hpc hload => exact h.compare hpc hload
  | visit i drained pos m call hpc hlt hs => exact h.visit hpc hlt hs
  | popGoesOn i drained pos m call call' hpc hlt hs => exact h.popGoesOn hpc hlt hs
  | popEmpty i drained pos m call call' hpc hlt hs => exact h.popEmpty hpc hlt hs
  | popValue i drained pos m call call' request engine hpc hlt hs hhandle =>
    exact h.popValue hpc hlt hs engine
  | polled i drained call hpc hge =>
    have hphase : (s.view n evs).consumer = .sweep i drained := by
      simp [State.view, hpc, Consumer.phase]
    obtain rfl : call = .idle := by
      have hmatcher := h.matcher
      unfold State.MatcherOk at hmatcher
      rw [hpc] at hmatcher
      exact hmatcher hge
    exact h.internal rfl rfl (State.popping_idle hpc) (fun _ => rfl) trivial
      (fun q => by simp [acceptedOn]) ((Moves.polled i drained hphase hge).history h.history)

@[simp] theorem handlerCalls_producerEvent (p : Nat) (request : OrderRequest)
    (ev : Spsc.Event OrderRequest) : handlerCalls [producerEvent p request ev] = [] := by
  cases ev <;> rfl

@[simp] theorem results_producerEvent (p : Nat) (request : OrderRequest)
    (ev : Spsc.Event OrderRequest) : results [producerEvent p request ev] = [] := by
  cases ev <;> rfl

/-- What the handler was called with, in order, makes up its state. -/
structure Worked (handle : σ → OrderRequest → Run σ) (n : Nat) (engine : σ) (evs : List Event)
    (s : State σ) : Prop where
  engine : ((handlerCalls evs).map Prod.snd).foldlM handle engine = some s.engine
  processed : s.processed = (results evs).sum
  lanes : ∀ x ∈ handlerCalls evs, x.1 < n

theorem Accesses.worked (hs : Accesses capacity handle n s ev s') {engine : σ}
    (h : Worked handle n engine evs s) : Worked handle n engine (evs ++ [ev]) s' := by
  obtain ⟨hengine, hprocessed, hlanes⟩ := h
  have hcalls : handlerCalls (evs ++ [ev]) = handlerCalls evs ++ handlerCalls [ev] :=
    List.filterMap_append ..
  have hresults : results (evs ++ [ev]) = results evs ++ results [ev] := List.filterMap_append ..
  refine ⟨?_, ?_, ?_⟩
  · rw [hcalls]
    cases hs with
    | submit => simpa using hengine
    | popValue i drained pos m call call' request engine' hpc hlt hs hhandle =>
      rw [List.map_append, List.foldlM_append, hengine]
      simp [handlerCalls, hhandle]
    | _ => simpa [handlerCalls] using hengine
  · rw [hresults]
    cases hs with
    | submit => simpa using hprocessed
    | polled i drained call hpc hge => simp [results, hprocessed]
    | _ => simpa [results] using hprocessed
  · rw [hcalls]
    intro x hx
    rcases List.mem_append.mp hx with hold | hnew
    · exact hlanes x hold
    · cases hs with
      | submit => simp at hnew
      | popValue i drained pos m call call' request engine' hpc hlt hs hhandle =>
        obtain rfl : x = ((s.nextLane + i) % n, request) := by simpa [handlerCalls] using hnew
        exact Nat.mod_lt _ (by omega)
      | _ => simp [handlerCalls] at hnew

end steps

/-! ## Section 2: Every run -/

/-- After the events `evs`, whoever moved when and whichever stores the loads
    returned. -/
structure Delivers (capacity : Capacity) (handle : σ → OrderRequest → Run σ) (n : Nat)
    (requests : Nat → List OrderRequest) (engine : σ) (evs : List Event) (s : State σ) : Prop where
  race_free : ¬ s.Racing n
  /-- Every producer's requests are accepted in its order. -/
  accepted : ∀ p < n, acceptedOn p evs <+: requests p
  /-- What is handled from a lane is the first part of what it accepted. -/
  in_order : ∀ p, handledOn p evs <+: acceptedOn p evs
  /-- The handler's state is made by its calls, one after the other. -/
  engine : ((handlerCalls evs).map Prod.snd).foldlM handle engine = some s.engine
  /-- Every sweep visits every lane once, starting one lane further each time. -/
  sweeps : ∀ (k : Nat) (sweep : Gateway.Sweep), (Gateway.log evs).sweeps[k]? = some sweep →
    sweep.Complete n k
  /-- When the loop has exited, everything is handled and counted. -/
  exited : s.consumer = .done →
    (∀ p < n, (s.threads p).finished = true ∧ handledOn p evs = requests p) ∧
      s.processed = ∑ p ∈ Finset.range n, (requests p).length
  /-- Nobody gets stuck, unless the handler faults on the request it would be
      called with next. -/
  progress : (s.consumer ≠ .done →
      (∃ pos, (step capacity .source handle n s (.matcher pos)).isSome) ∨
        ∃ request, s.taken? = some request ∧ handle s.engine request = none) ∧
    ∀ p < n, (s.threads p).finished = false →
      ∃ pos, (step capacity .source handle n s (.producer p pos)).isSome

section runs

variable {capacity : Capacity} {handle : σ → OrderRequest → Run σ} {n : Nat}
  {requests : Nat → List OrderRequest} {engine : σ} {evs : List Event} {s : State σ}

/-- The handler's calls, lane by lane. -/
theorem length_handlerCalls (hlanes : ∀ x ∈ handlerCalls evs, x.1 < n) :
    (handlerCalls evs).length = ∑ p ∈ Finset.range n, (handledOn p evs).length := by
  induction evs with
  | nil => simp [handlerCalls, handledOn]
  | cons ev evs ih =>
    have htail : ∀ x ∈ handlerCalls evs, x.1 < n := by
      intro x hx
      refine hlanes x ?_
      unfold handlerCalls at hx ⊢
      rw [List.filterMap_cons]
      split
      · exact hx
      · exact List.mem_cons_of_mem _ hx
    have hrest := ih htail
    cases ev with
    | handled lane request =>
      have hlane : lane < n := hlanes (lane, request) (by simp [handlerCalls])
      have hone : ∀ p, (handledOn p (.handled lane request :: evs)).length =
          (if lane = p then 1 else 0) + (handledOn p evs).length := by
        intro p
        by_cases hp : lane = p
        · simp [handledOn, hp, Nat.add_comm]
        · simp [handledOn, hp]
      simp only [hone, Finset.sum_add_distrib, ← hrest]
      simp [handlerCalls, Finset.sum_ite_eq, hlane, Nat.add_comm]
    | _ => simpa [handlerCalls, handledOn] using hrest

theorem Kept.matcher_progress (h : Kept capacity n requests evs s) (hpc : s.consumer ≠ .done) :
    (∃ pos, (step capacity .source handle n s (.matcher pos)).isSome) ∨
      ∃ request, s.taken? = some request ∧ handle s.engine request = none := by
  simp only [step, matcherStep, State.taken?]
  cases hphase : s.consumer with
  | done => exact absurd hphase hpc
  | test =>
    obtain ⟨pos, value, m, hload⟩ := h.consistent.exists_load .matcher .acquire .remaining
    exact Or.inl ⟨pos, by simp [CounterOrders.source, hload]⟩
  | scan p =>
    by_cases hp : p < n
    · obtain ⟨pos, value, m, hload⟩ := h.consistent.exists_load .matcher .acquire (.read p)
      exact Or.inl ⟨pos, by simp [hp, hload]⟩
    · exact Or.inl ⟨0, by simp [hp]⟩
  | compare p read =>
    obtain ⟨pos, value, m, hload⟩ := h.consistent.exists_load .matcher .acquire (.write p)
    exact Or.inl ⟨pos, by simp [hload]⟩
  | sweep i drained call =>
    by_cases hlt : i < n
    · by_cases hidle : call = .idle
      · subst hidle
        obtain ⟨pos, hbegin⟩ := (lane ((s.nextLane + i) % n)).exists_beginPop h.consistent
        obtain ⟨⟨m, call⟩, hbegin⟩ := Option.isSome_iff_exists.mp hbegin
        exact Or.inl ⟨pos, by simp [hlt, hbegin]⟩
      · obtain ⟨pos, hstep⟩ :=
          (lane ((s.nextLane + i) % n)).exists_consumerStep capacity h.consistent hidle
        obtain ⟨⟨sev, m, call'⟩, hstep⟩ := Option.isSome_iff_exists.mp hstep
        rcases Lane.consumerStep_shows hstep with
          ⟨-, rfl | ⟨rfl, -⟩⟩ | ⟨request, read, rfl, rfl, -⟩
        · exact Or.inl ⟨pos, by simp [hlt, hstep]⟩
        · exact Or.inl ⟨pos, by simp [hlt, hstep]⟩
        · cases hhandle : handle s.engine request with
          | none => exact Or.inr ⟨request, rfl, hhandle⟩
          | some engine => exact Or.inl ⟨pos, by simp [hlt, hstep, hhandle]⟩
    · exact Or.inl ⟨0, by simp [hlt]⟩

theorem Kept.producer_progress (h : Kept capacity n requests evs s) {p : Nat} (hp : p < n)
    (hrunning : (s.threads p).finished = false) :
    ∃ pos, (step capacity .source handle n s (.producer p pos)).isSome := by
  simp only [step, hp, if_true, producerStep, hrunning]
  cases htodo : (s.threads p).todo with
  | nil =>
    obtain ⟨msg, m₁, -, -, hmodify⟩ :=
      h.consistent.modify (.producer p) .release .remaining (· - 1)
    refine ⟨0, ?_⟩
    simp [(h.threads p).idle htodo, CounterOrders.source, hmodify]
  | cons request rest =>
    by_cases hidle : (s.threads p).call = .idle
    · obtain ⟨pos, hbegin⟩ := (lane p).exists_beginPush capacity h.consistent request
      obtain ⟨⟨m, call⟩, hbegin⟩ := Option.isSome_iff_exists.mp hbegin
      exact ⟨pos, by simp [hidle, hbegin]⟩
    · obtain ⟨pos, hstep⟩ := (lane p).exists_producerStep h.consistent hidle
      obtain ⟨⟨ev, m, call⟩, hstep⟩ := Option.isSome_iff_exists.mp hstep
      exact ⟨pos, by simp [hstep]⟩

theorem Kept.exited (h : Kept capacity n requests evs s) (hdone : s.consumer = .done) {p : Nat}
    (hp : p < n) : (s.threads p).finished = true ∧ handledOn p evs = requests p := by
  have hphase : (s.view n evs).consumer = .done := by simp [State.view, hdone, Consumer.phase]
  have hleaving := h.history.leaving
  unfold Gateway.Leaving at hleaving
  rw [hphase] at hleaving
  obtain ⟨hnone, hempty⟩ := hleaving
  have hfinished : (s.threads p).finished = true := by
    by_contra hrunning
    have hrun : (s.view n evs).running[p]? = some true := by
      simpa [State.view, hp] using hrunning
    have hpos := List.count_pos_iff.mpr (List.mem_of_getElem? hrun)
    omega
  have hconserved := h.history.conserved p
  rw [hempty p, List.append_nil] at hconserved
  have htodo := h.todo p
  rw [(h.threads p).finished hfinished, List.append_nil] at htodo
  exact ⟨hfinished, hconserved.symm.trans htodo⟩

theorem kept_start : Kept capacity n requests [] (start n requests engine) where
  consistent := Memory.consistent_initial _ _
  lanes := fun p => (lane p).rep_initial (Nat.lt_of_lt_of_le Nat.two_pos capacity.two_le) rfl rfl _
  history := by
    refine ⟨fun _ => ?_, rfl, ⟨?_, ?_, fun _ _ => ?_⟩, trivial, ?_⟩
    · simp [State.view, acceptedOn, handledOn]
    · simp [State.view]
    · simp [State.view, start, Memory.initial]
    · simp [State.view, acceptedOn]
    · exact ⟨fun _ => (Nat.zero_mod n).symm, by simp [Gateway.log], rfl⟩
  todo := fun _ => rfl
  threads := by
    intro p
    exact ⟨fun item hitem => (by cases hitem), fun hfinished => (by cases hfinished)⟩
  counter := by
    intro k msg hk
    obtain ⟨rfl, rfl⟩ : k = 0 ∧ ⟨n, fun _ => 0⟩ = msg := by
      simpa [start, Memory.initial, List.getElem?_singleton] using hk
    rfl
  tells := by
    have hzero : Tells n requests fun _ => 0 := by
      intro hn p hp
      exact absurd (Nat.lt_of_lt_of_le hp hn) (Nat.not_lt_zero p)
    refine ⟨fun _ _ => hzero, ?_⟩
    intro l msg hmsg
    obtain rfl : msg = ⟨if l = .remaining then n else 0, fun _ => 0⟩ := by
      simpa [start, Memory.initial] using hmsg
    exact hzero
  told := fun msg hmsg p hp hfinished => by cases hfinished
  matcher := trivial

theorem Kept.delivers (h : Kept capacity n requests evs s)
    (hworked : Worked handle n engine evs s) :
    Delivers capacity handle n requests engine evs s where
  race_free := by
    rintro ⟨p, hrace⟩
    exact (h.lanes p).not_racing h.consistent hrace
  accepted := fun p _ => ⟨_, h.todo p⟩
  in_order := fun p => ⟨_, (h.history.conserved p).symm⟩
  engine := hworked.engine
  sweeps := h.history.swept.complete
  exited := by
    intro hdone
    refine ⟨fun p hp => h.exited hdone hp, ?_⟩
    have hcounted : (results evs).sum + s.consumer.phase.drained = (handlerCalls evs).length :=
      h.history.counted
    rw [hdone, length_handlerCalls hworked.lanes] at hcounted
    rw [hworked.processed]
    refine hcounted.trans (Finset.sum_congr rfl fun p hp => ?_)
    rw [(h.exited hdone (Finset.mem_range.mp hp)).2]
  progress := ⟨h.matcher_progress, fun _ hp => h.producer_progress hp⟩

theorem kept_of_exec {orders : CounterOrders} (horders : orders.Synchronize)
    {actions : List Action}
    (hrun : Runs.exec (step capacity orders handle n) (start n requests engine) actions =
      some (evs, s)) :
    Kept capacity n requests evs s ∧ Worked handle n engine evs s :=
  Runs.exec_invariant
    (P := fun evs s => Kept capacity n requests evs s ∧ Worked handle n engine evs s)
    (fun evs s a ev s' ⟨h, hworked⟩ hs =>
      ⟨(accesses_of_step horders hs).kept h, (accesses_of_step horders hs).worked hworked⟩)
    actions [] (start n requests engine) ⟨kept_start, ⟨rfl, rfl, by simp [handlerCalls]⟩⟩ hrun

end runs

/-- **The demo delivers everything, without a data race**: for every number of
    producers and all that they submit, in whatever order the threads move and
    whichever stores their loads return. -/
theorem drain_loop_delivers (capacity : Capacity) (handle : σ → OrderRequest → Run σ) (n : Nat)
    (requests : Nat → List OrderRequest) (engine : σ) (actions : List Action) (evs : List Event)
    (s : State σ)
    (hrun : Runs.exec (step capacity .source handle n) (start n requests engine) actions =
      some (evs, s)) : Delivers capacity handle n requests engine evs s := by
  obtain ⟨h, hworked⟩ := kept_of_exec CounterOrders.synchronize_source hrun
  exact h.delivers hworked

/-- Two producers with two requests each, and lanes for one.  The matching
    thread's first sweep still loads the first store of everything and finds
    nothing; the second one starts at the other lane, and the third one takes
    what was pushed meanwhile. -/
theorem drain_loop_delivers_stale_sweep :
    ∃ (evs : List Event) (s : State Nat), s.consumer = .done ∧ results evs = [0, 2, 2] ∧
      (handlerCalls evs).map (fun x => (x.1, x.2.quantity)) = [(1, 7), (0, 5), (0, 6), (1, 8)] ∧
      Delivers ⟨2, by decide, by decide⟩ (fun count _ => some (count + 1)) 2
        (fun p => [{ quantity := 5 + 2 * p }, { quantity := 6 + 2 * p }]) 0 evs s := by
  obtain ⟨evs, s, hrun, hdone, hresults, hcalls⟩ := Runs.exists_exec_of_any
    (step ⟨2, by decide, by decide⟩ .source (fun count _ => some (count + 1)) 2)
    (start 2 (fun p => [{ quantity := 5 + 2 * p }, { quantity := 6 + 2 * p }]) 0)
    [.producer 0 0, .producer 0 0, .producer 0 0, .producer 0 0,
      .producer 1 0, .producer 1 0, .producer 1 0, .producer 1 0,
      .matcher 0, .matcher 0, .matcher 0, .matcher 0, .matcher 0, .matcher 0,
      .matcher 0, .matcher 0, .matcher 1, .matcher 0, .matcher 0,
      .matcher 0, .matcher 1, .matcher 0, .matcher 0, .matcher 0,
      .producer 1 1, .producer 1 1, .producer 1 0, .producer 1 0, .producer 1 0,
      .producer 0 1, .producer 0 1, .producer 0 0, .producer 0 0, .producer 0 0,
      .matcher 2, .matcher 1, .matcher 2, .matcher 1, .matcher 2, .matcher 0, .matcher 0,
      .matcher 1, .matcher 2, .matcher 0, .matcher 0, .matcher 0,
      .matcher 2, .matcher 2, .matcher 2, .matcher 2, .matcher 2, .matcher 0]
    (fun evs s => s.consumer = .done ∧ results evs = [0, 2, 2] ∧
      (handlerCalls evs).map (fun x => (x.1, x.2.quantity)) = [(1, 7), (0, 5), (0, 6), (1, 8)])
    (by decide +kernel)
  exact ⟨evs, s, hdone, hresults, hcalls, drain_loop_delivers _ _ 2 _ 0 _ evs s hrun⟩

/-! ## Section 3: With weaker orders on the counter -/

section moves

variable {capacity : Capacity} {orders : CounterOrders} {handle : σ → OrderRequest → Run σ}
  {n p pos value : Nat} {s : State σ} {m : SharedMemory} {call : Spsc.Producer OrderRequest}

theorem step_begin (hp : p < n) {request : OrderRequest} {rest : List OrderRequest}
    (hthread : s.threads p = { todo := request :: rest })
    (hs : (lane p).beginPush capacity s.memory request pos = some (m, call)) :
    step capacity orders handle n s (.producer p pos) = some (.silent, { s with
      memory := m
      threads := Function.update s.threads p { todo := request :: rest, call := call } }) := by
  simp [step, producerStep, hp, hthread, hs]

theorem step_submit (hp : p < n) {request : OrderRequest} {rest : List OrderRequest}
    {ev : Spsc.Event OrderRequest} {call' : Spsc.Producer OrderRequest}
    (hthread : s.threads p = { todo := request :: rest, call := call })
    (hs : (lane p).producerStep .source s.memory pos call = some (ev, m, call')) :
    step capacity orders handle n s (.producer p pos) =
      some (producerEvent p request ev, { s with
        memory := m
        threads := Function.update s.threads p
          { todo := if ev = .pushed request then rest else request :: rest, call := call' } }) := by
  cases call with
  | idle => cases hs
  | loadedOwn | checked | written => simp [step, producerStep, hp, hthread, hs]

theorem step_finish (pos : Nat) (hp : p < n) (hthread : s.threads p = { todo := [] })
    (hs : s.memory.modify (.producer p) orders.sub .remaining (· - 1) = some m) :
    step capacity orders handle n s (.producer p pos) = some (.finished p, { s with
      memory := m
      threads := Function.update s.threads p { todo := [], finished := true } }) := by
  simp [step, producerStep, hp, hthread, hs]

theorem step_test (hpc : s.consumer = .test)
    (hload : s.memory.load .matcher orders.load .remaining pos = some (value, m)) :
    step capacity orders handle n s (.matcher pos) = some (.silent, { s with
      memory := m
      consumer := if value > 0 then .sweep 0 0 .idle else .scan 0 }) := by
  simp [step, matcherStep, hpc, hload]

theorem step_scan (hpc : s.consumer = .scan p) (hp : p < n)
    (hload : s.memory.load .matcher .acquire (.read p) pos = some (value, m)) :
    step capacity orders handle n s (.matcher pos) =
      some (.silent, { s with memory := m, consumer := .compare p value }) := by
  simp [step, matcherStep, hpc, hp, hload]

theorem step_compare {read : Nat} (hpc : s.consumer = .compare p read)
    (hload : s.memory.load .matcher .acquire (.write p) pos = some (value, m)) :
    step capacity orders handle n s (.matcher pos) = some (.silent, { s with
      memory := m
      consumer := if read = value then .scan (p + 1) else .sweep 0 0 .idle }) := by
  simp [step, matcherStep, hpc, hload]

theorem step_exit (pos : Nat) (hpc : s.consumer = .scan p) (hp : n ≤ p) :
    step capacity orders handle n s (.matcher pos) =
      some (.exited, { s with consumer := .done }) := by
  simp [step, matcherStep, hpc, Nat.not_lt.mpr hp]

end moves

/-- The one request of one producer is pushed, and the matching thread has not
    moved. -/
theorem exec_push (capacity : Capacity) (orders : CounterOrders)
    (handle : σ → OrderRequest → Run σ) (engine : σ) (request : OrderRequest) :
    ∃ m, Runs.exec (step capacity orders handle 1) (start 1 (fun _ => [request]) engine)
        [.producer 0 0, .producer 0 0, .producer 0 0, .producer 0 0] =
          some ([.silent, .silent, .silent, .accepted 0 request],
            { start 1 (fun _ => [request]) engine with
              memory := m
              threads := Function.update (fun _ => { todo := [request] }) 0 { todo := [] } }) ∧
      m.Consistent ∧ m.done (.store .remaining) = 0 ∧ (∀ k, m.views .matcher k = 0) ∧
      m.stores .remaining = [⟨1, fun _ => 0⟩] ∧
      m.stores (.read 0) = [⟨0, fun _ => 0⟩] ∧
      (m.stores (.write 0))[0]? = some ⟨0, fun _ => 0⟩ := by
  have h2 := capacity.two_le
  have hm : (start 1 (fun _ => [request]) engine).memory.Consistent :=
    Memory.consistent_initial _ _
  have hlast : ∀ l, l ≠ .remaining → (start 1 (fun _ => [request]) engine).memory.Last l 0
      (0 % capacity.size) := by
    intro l hl
    exact ⟨rfl, ⟨0, fun _ => 0⟩, by simp [start, Memory.initial, hl], (Nat.zero_mod _).symm⟩
  have hroom : (0 + 1) % capacity.size ≠ 0 % capacity.size := by
    rw [Nat.zero_mod, Nat.mod_eq_of_lt (by omega)]
    exact Nat.one_ne_zero
  obtain ⟨m₁, m₂, hbegin, hcheck, hm₂, hstores, hdone, hviews⟩ :=
    (lane 0).push_of_last .source hm (hlast (.write 0) (by simp)) (hlast (.read 0) (by simp)) hroom
      request
  refine ⟨(m₂.write (.producer 0) (0, 0 % capacity.size) request).store (.producer 0) .release
    (.write 0) ((0 + 1) % capacity.size), ?_, (hm₂.write _ _ _).store _ _ _ _, ?_, ?_, ?_, ?_, ?_⟩
  · refine Runs.exec_cons_eq_some.mpr ⟨_, _, _, step_begin Nat.zero_lt_one rfl hbegin, ?_, rfl⟩
    refine Runs.exec_cons_eq_some.mpr ⟨_, _, _, step_submit Nat.zero_lt_one rfl hcheck, ?_, rfl⟩
    refine Runs.exec_cons_eq_some.mpr ⟨_, _, _, step_submit Nat.zero_lt_one rfl rfl, ?_, rfl⟩
    refine Runs.exec_cons_eq_some.mpr ⟨_, _, _, step_submit Nat.zero_lt_one rfl rfl, ?_, rfl⟩
    simp [Runs.exec, Function.update_idem]
    exact ⟨rfl, rfl⟩
  · simp [Memory.store, View.next_of_ne, hdone, start, Memory.initial]
  · intro k
    simp [Memory.store, hviews .matcher (by simp [lane]), start, Memory.initial]
  · simp [Memory.store, hstores, start, Memory.initial]
  · simp [Memory.store, hstores, start, Memory.initial]
  · simp [Memory.store, hstores, start, Memory.initial]

/-- With weaker orders the matching thread may leave with the request
    unhandled. -/
theorem exec_lost (capacity : Capacity) {orders : CounterOrders}
    (hweak : orders.load.acquires → ¬ orders.sub.releases)
    (handle : σ → OrderRequest → Run σ) (engine : σ) (request : OrderRequest) :
    ∃ actions evs s, Runs.exec (step capacity orders handle 1)
        (start 1 (fun _ => [request]) engine) actions = some (evs, s) ∧
      s.consumer = .done ∧ handledOn 0 evs = [] := by
  obtain ⟨m, hpush, hm, hcount, hviews, hremaining, hread, hwrite⟩ :=
    exec_push capacity orders handle engine request
  -- the producer counts itself out
  obtain ⟨m₁, view, hfinish, hlast, hsilent, hviews₁, hread₁, hwrite₁⟩ : ∃ m₁ view,
      m.modify (.producer 0) orders.sub .remaining (· - 1) = some m₁ ∧
      (m₁.stores .remaining)[1]? = some ⟨0, view⟩ ∧
      (orders.load.acquires → ∀ l, l ≠ .remaining → view (.store l) = 0) ∧
      (∀ k, m₁.views .matcher k = 0) ∧ m₁.stores (.read 0) = m.stores (.read 0) ∧
      m₁.stores (.write 0) = m.stores (.write 0) := by
    obtain ⟨msg, m', hmsg, hload, hmodify⟩ :=
      hm.modify (.producer 0) orders.sub .remaining (· - 1)
    rw [hcount, hremaining] at hmsg
    obtain rfl : ⟨1, fun _ => 0⟩ = msg := by simpa using hmsg
    obtain ⟨hstores', hviews'⟩ : m'.stores = m.stores ∧ ∀ k, m'.views .matcher k = 0 := by
      obtain ⟨-, _, -, -, rfl⟩ := Memory.load_eq_some.mp hload
      exact ⟨rfl, by simp [hviews]⟩
    refine ⟨_, m'.released (.producer 0) orders.sub .remaining ⊔ fun _ => 0, hmodify,
      by simp [hstores', hremaining], ?_, by simp [hviews'], by simp [hstores'],
      by simp [hstores']⟩
    intro hacquires l hl
    simp [Memory.released, hweak hacquires, View.upTo, hl]
  -- the matching thread sees that nobody is left, but not the push
  obtain ⟨m₂, htest, hstores₂, hviews₂⟩ := Memory.exists_load_old
    (show m₁.views .matcher (.store .remaining) ≤ 1 by rw [hviews₁]; exact Nat.zero_le 1) hlast
    orders.load
  have hunaware : ∀ l, l ≠ .remaining → m₂.views .matcher (.store l) = 0 := by
    intro l hl
    exact hviews₂ _ (by simpa using hl) (hviews₁ _) fun hacquires => hsilent hacquires l hl
  have hreadIdx : (m₂.stores (.read 0))[0]? = some ⟨0, fun _ => 0⟩ := by
    rw [hstores₂, hread₁, hread]
    rfl
  obtain ⟨m₃, hscan, hstores₃, hviews₃⟩ := Memory.exists_load_old
    (Nat.le_of_eq (hunaware (.read 0) (by simp))) hreadIdx .acquire
  have hwriteIdx : (m₃.stores (.write 0))[0]? = some ⟨0, fun _ => 0⟩ := by
    rw [hstores₃, hstores₂, hwrite₁]
    exact hwrite
  obtain ⟨m₄, hcompare, -, -⟩ := Memory.exists_load_old (Nat.le_of_eq
    (hviews₃ (.store (.write 0)) (by simp) (hunaware (.write 0) (by simp)) fun _ => rfl))
    hwriteIdx .acquire
  have hrun := Runs.exec_append hpush
    (Runs.exec_cons_eq_some.mpr ⟨_, _, _, step_finish 0 Nat.zero_lt_one rfl hfinish,
    Runs.exec_cons_eq_some.mpr ⟨_, _, _, step_test rfl htest,
    Runs.exec_cons_eq_some.mpr ⟨_, _, _, step_scan rfl Nat.zero_lt_one hscan,
    Runs.exec_cons_eq_some.mpr ⟨_, _, _, step_compare rfl hcompare,
    Runs.exec_cons_eq_some.mpr ⟨_, _, _, step_exit 0 rfl (Nat.le_refl 1),
      show Runs.exec _ _ [] = some ([], _) from rfl, rfl⟩,
    rfl⟩, rfl⟩, rfl⟩, rfl⟩)
  exact ⟨_, _, _, hrun, rfl, by simp [handledOn]⟩

/-- **Both orders of the counter are needed**: the loop leaves nothing unhandled,
    whatever is submitted, exactly when `fetch_sub` releases and the load
    acquires, as those of the source do.  The run that loses a request has one
    `seqCst` access at most, so that their single order would not exclude it. -/
theorem delivers_iff_counter_orders (capacity : Capacity) (orders : CounterOrders)
    (handle : σ → OrderRequest → Run σ) (engine : σ) :
    (∀ (n : Nat) (requests : Nat → List OrderRequest) (actions : List Action) (evs : List Event)
      (s : State σ), Runs.exec (step capacity orders handle n) (start n requests engine) actions =
        some (evs, s) → s.consumer = .done → ∀ p < n, handledOn p evs = requests p) ↔
      orders.sub.releases ∧ orders.load.acquires := by
  constructor
  · intro hall
    by_contra hnot
    have hweak : orders.load.acquires → ¬ orders.sub.releases :=
      fun hload hsub => hnot ⟨hsub, hload⟩
    obtain ⟨actions, evs, s, hrun, hdone, hnone⟩ := exec_lost capacity hweak handle engine {}
    have hall := hall 1 _ actions evs s hrun hdone 0 Nat.zero_lt_one
    rw [hnone] at hall
    cases hall
  · rintro ⟨hsub, hload⟩ n requests actions evs s hrun hdone p hp
    exact ((kept_of_exec ⟨hsub, hload⟩ hrun).1.exited hdone hp).2

end SharedGateway

end LightningLob
