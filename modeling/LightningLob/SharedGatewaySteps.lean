import LightningLob.SharedGateway

/-! # What the accesses to the shared gateway keep

    Each access of the threads is, for the lanes seen as queues, a move of the
    gateway whose accesses are all in order, but for a visit that comes too
    early to see what waits.  Whoever loads the last store of the counter knows
    of all pushes, so that the scan after it sees them. -/

namespace LightningLob

open ReleaseAcquire

namespace SharedGateway

open Gateway (Event View Moves History acceptedOn handledOn handlerCalls results)

variable {σ : Type}

/-! ## Section 1: What the threads know -/

/-- Who knows the last store of the counter knows all pushes. -/
def Tells (n : Nat) (requests : Nat → List OrderRequest)
    (v : ReleaseAcquire.View Thread Location (Nat × Nat)) : Prop :=
  n ≤ v (.store .remaining) → ∀ p < n, (requests p).length ≤ v (.store (.write p))

theorem tells_joins (n : Nat) (requests : Nat → List OrderRequest) :
    Memory.Joins (Tells n requests) := by
  intro v w hv hw hn p hp
  rcases le_max_iff.mp (show n ≤ max _ _ from hn) with hn | hn
  · exact (hv hn p hp).trans (Nat.le_max_left _ _)
  · exact (hw hn p hp).trans (Nat.le_max_right _ _)

theorem tells_grows {n : Nat} {requests : Nat → List OrderRequest}
    {v w : ReleaseAcquire.View Thread Location (Nat × Nat)} (h : Tells n requests v) (hle : v ≤ w)
    (hsame : w (.store .remaining) = v (.store .remaining)) : Tells n requests w := by
  intro hn p hp
  rw [hsame] at hn
  exact (h hn p hp).trans (hle _)

/-- A thread that goes on: what it knows may still be passed on. -/
def State.Running (s : State σ) : Thread → Prop
  | .producer p => (s.threads p).finished = false
  | .matcher => True

/-- A producer's locals. -/
structure Producer.Ok (thread : Producer) : Prop where
  /-- The item of the call is the request to be submitted. -/
  current : ∀ item, thread.call.item? = some item → ∃ rest, thread.todo = item :: rest
  finished : thread.finished = true → thread.todo = []

/-- What the matching thread knows at each point of its loop. -/
def State.MatcherOk (capacity : Capacity) (n : Nat) (s : State σ) : Prop :=
  match s.consumer with
  | .test | .done => True
  | .scan _ => n ≤ s.memory.views .matcher (.store .remaining)
  | .compare p read => n ≤ s.memory.views .matcher (.store .remaining) ∧ p < n ∧
      read = s.memory.done (.store (.read p)) % capacity.size
  | .sweep i _ call => n ≤ i → call = .idle

/-- The phase of the loop. -/
def Consumer.phase : Consumer → Gateway.Consumer
  | .test => .test
  | .scan p | .compare p _ => .scan p
  | .sweep i drained _ => .sweep i drained
  | .done => .done

/-- The lanes as queues, after the events `evs`. -/
def State.view (n : Nat) (evs : List Event) (s : State σ) : View where
  queues := fun p => (acceptedOn p evs).drop (s.memory.done (.store (.read p)))
  running := (List.range n).map fun p => !(s.threads p).finished
  remaining := n - s.memory.done (.store .remaining)
  nextLane := s.nextLane
  consumer := s.consumer.phase

/-- What a run keeps. -/
structure Kept (capacity : Capacity) (n : Nat) (requests : Nat → List OrderRequest)
    (evs : List Event) (s : State σ) : Prop where
  consistent : s.memory.Consistent
  lanes : ∀ p, (lane p).Rep capacity.size (acceptedOn p evs) s.memory (s.threads p).call
    (s.popping n p)
  history : History n evs (s.view n evs)
  todo : ∀ p, acceptedOn p evs ++ (s.threads p).todo = requests p
  threads : ∀ p, (s.threads p).Ok
  counter : ∀ k msg, (s.memory.stores .remaining)[k]? = some msg → Message.value msg + k = n
  tells : s.memory.Everywhere s.Running (Tells n requests)
  told : ∀ msg, (s.memory.stores .remaining)[s.memory.done (.store .remaining)]? = some msg →
    ∀ p < n, (s.threads p).finished = true →
      (requests p).length ≤ Message.view msg (.store (.write p))
  matcher : s.MatcherOk capacity n

/-! ## Section 2: What shows and what does not -/

section views

variable {n : Nat} {evs : List Event} {v : View} {s s' : State σ}

/-- Nothing shows. -/
theorem history_silent (h : History n evs v) : History n (evs ++ [.silent]) v := by
  have hlog : Gateway.log (evs ++ [.silent]) = Gateway.log evs := by
    simp [Gateway.log, List.foldl_append, Gateway.Log.add]
  refine ⟨?_, ?_, h.bounded, h.leaving, hlog ▸ h.swept⟩
  · intro p
    simpa [acceptedOn, handledOn] using h.conserved p
  · have hcounted := h.counted
    unfold Gateway.Counted results handlerCalls at *
    simpa using hcounted

/-- A visit that finds nothing, whatever waits in the lane. -/
theorem history_missed (h : History n evs v) {i drained : Nat}
    (hpc : v.consumer = .sweep i drained) (hlt : i < n) :
    History n (evs ++ [.passed ((v.nextLane + i) % n)])
      { v with consumer := .sweep (i + 1) drained } := by
  refine ⟨?_, ?_, ⟨h.bounded.producers, h.bounded.remaining, h.bounded.outside⟩, trivial, ?_⟩
  · intro p
    simpa [acceptedOn, handledOn] using h.conserved p
  · have hcounted := h.counted
    unfold Gateway.Counted results handlerCalls at *
    simpa [Gateway.Consumer.drained, hpc] using hcounted
  · have hlog : Gateway.log (evs ++ [.passed ((v.nextLane + i) % n)]) =
        (Gateway.log evs).add (.passed ((v.nextLane + i) % n)) := by
      simp [Gateway.log, List.foldl_append]
    rw [hlog]
    exact ⟨h.swept.next, h.swept.complete, h.swept.visit hpc hlt none⟩

/-- The view after a step, read off the state. -/
theorem history_of_view {evs' : List Event} (h : History n evs' v)
    (hqueues : ∀ p, (acceptedOn p evs').drop (s'.memory.done (.store (.read p))) = v.queues p)
    (hrunning : (List.range n).map (fun p => !(s'.threads p).finished) = v.running)
    (hremaining : (n : Int) - s'.memory.done (.store .remaining) = v.remaining)
    (hnext : s'.nextLane = v.nextLane) (hphase : s'.consumer.phase = v.consumer) :
    History n evs' (s'.view n evs') := by
  have hview : s'.view n evs' = v := by
    cases v
    simp only at hqueues hrunning hremaining hnext hphase
    simp only [State.view, View.mk.injEq]
    exact ⟨funext hqueues, hrunning, hremaining, hnext, hphase⟩
  rw [hview]
  exact h

@[simp] theorem State.popping_threads (s : State σ) (m : SharedMemory) (threads : Nat → Producer)
    (p : Nat) : State.popping n { s with memory := m, threads := threads } p = s.popping n p := rfl

@[simp] theorem acceptedOn_append (p : Nat) (evs evs' : List Event) :
    acceptedOn p (evs ++ evs') = acceptedOn p evs ++ acceptedOn p evs' :=
  List.filterMap_append ..

/-- What an access of a lane's producer adds to a lane. -/
theorem acceptedOn_producerEvent {p q : Nat} {request : OrderRequest}
    {ev : Spsc.Event OrderRequest} (hitem : ∀ item, ev = .pushed item → item = request) :
    acceptedOn q [producerEvent p request ev] =
      if q = p then Spsc.publishedValues [ev] else [] := by
  cases ev with
  | pushed item =>
    obtain rfl := hitem item rfl
    by_cases hq : q = p
    · simp [acceptedOn, producerEvent, Spsc.publishedValues, hq]
    · simp [acceptedOn, producerEvent, hq, Ne.symm hq]
  | _ => simp [acceptedOn, producerEvent, Spsc.publishedValues]

end views

/-! ## Section 3: The producers' accesses -/

section producers

variable {capacity : Capacity} {n : Nat} {requests : Nat → List OrderRequest}
  {evs : List Event} {s s' : State σ} {p : Nat}

theorem lane_apart {p q : Nat} (hne : p ≠ q) : (lane p).Apart (lane q) where
  indices := by
    rintro l (rfl | rfl) <;> simp [lane, Ne.symm hne]
  slots := fun x y heq => hne (Prod.mk.inj heq).1.symm

theorem Producer.Ok.idle {thread : Producer} (h : thread.Ok) (htodo : thread.todo = []) :
    thread.call = .idle := by
  cases hcall : thread.call with
  | idle => rfl
  | loadedOwn item | checked item | written item =>
    obtain ⟨rest, hrest⟩ := h.current item (by rw [hcall]; rfl)
    rw [htodo] at hrest
    cases hrest

/-- What the matching thread knows does not depend on the producers. -/
theorem State.MatcherOk.congr (h : s.MatcherOk capacity n) (hconsumer : s'.consumer = s.consumer)
    (hviews : s'.memory.views .matcher = s.memory.views .matcher)
    (hread : ∀ p, s'.memory.done (.store (.read p)) = s.memory.done (.store (.read p))) :
    s'.MatcherOk capacity n := by
  unfold State.MatcherOk at *
  rw [hconsumer, hviews]
  split at h
  · trivial
  · trivial
  · exact h
  · rw [hread]
    exact h
  · exact h

/-- An access of a producer that goes on: it may add to its lane, and changes
    nothing else that others see. -/
theorem Kept.goesOn (h : Kept capacity n requests evs s) (hrunning : (s.threads p).finished = false)
    (added : List OrderRequest) {m : SharedMemory} {thread : Producer} {ev : Event}
    (hm : m.Consistent) (hok : thread.Ok) (hrunning' : thread.finished = false)
    (htodo : added ++ thread.todo = (s.threads p).todo)
    (hlane : (lane p).Rep capacity.size (acceptedOn p evs ++ added) m thread.call (s.popping n p))
    (hothers : ∀ q, q ≠ p → (lane q).Rep capacity.size (acceptedOn q evs) m (s.threads q).call
      (s.popping n q))
    (hkeeps : ∀ l, l ≠ .write p → m.stores l = s.memory.stores l ∧
      m.done (.store l) = s.memory.done (.store l))
    (hviews : m.views .matcher = s.memory.views .matcher)
    (htells : m.Everywhere s.Running (Tells n requests))
    (hev : ∀ q, acceptedOn q [ev] = if q = p then added else [])
    (hmove : History n (evs ++ [ev]) { s.view n evs with
      queues := Function.update (s.view n evs).queues p ((s.view n evs).queues p ++ added) }) :
    Kept capacity n requests (evs ++ [ev])
      { s with memory := m, threads := Function.update s.threads p thread } := by
  have hread : ∀ q, m.done (.store (.read q)) = s.memory.done (.store (.read q)) :=
    fun q => (hkeeps (.read q) (by simp)).2
  obtain ⟨hstores, hdone⟩ := hkeeps .remaining (by simp)
  have hfinished : ∀ q, (Function.update s.threads p thread q).finished =
      (s.threads q).finished := by
    intro q
    by_cases hq : q = p
    · subst hq
      rw [Function.update_self, hrunning, hrunning']
    · rw [Function.update_of_ne hq]
  refine ⟨hm, ?_, ?_, ?_, ?_, ?_, ?_, ?_, ?_⟩
  · intro q
    rw [acceptedOn_append, hev]
    by_cases hq : q = p
    · subst hq
      rw [if_pos rfl]
      show (lane q).Rep _ _ m (Function.update s.threads q thread q).call (s.popping n q)
      rw [Function.update_self]
      exact hlane
    · rw [if_neg hq, List.append_nil]
      show (lane q).Rep _ _ m (Function.update s.threads p thread q).call (s.popping n q)
      rw [Function.update_of_ne hq]
      exact hothers q hq
  · refine history_of_view hmove ?_ ?_ ?_ rfl rfl
    · intro q
      show _ = Function.update (s.view n evs).queues p ((s.view n evs).queues p ++ added) q
      rw [acceptedOn_append, hev, hread]
      by_cases hq : q = p
      · subst hq
        rw [if_pos rfl, Function.update_self, List.drop_append_of_le_length]
        · rfl
        · have hpassed := (h.lanes q).passed_le h.consistent
          rw [(h.lanes q).ok.published]
          exact Nat.le_trans (Nat.le_add_right _ _) hpassed
      · rw [if_neg hq, List.append_nil, Function.update_of_ne hq]
        rfl
    · show _ = (List.range n).map _
      simp only [hfinished]
    · show (n : Int) - m.done (.store .remaining) = n - s.memory.done (.store .remaining)
      rw [hdone]
  · intro q
    rw [acceptedOn_append, hev]
    by_cases hq : q = p
    · subst hq
      rw [if_pos rfl]
      simpa [htodo] using h.todo q
    · simpa [hq] using h.todo q
  · intro q
    by_cases hq : q = p
    · subst hq
      simpa using hok
    · simpa [Function.update_of_ne hq] using h.threads q
  · rw [show _ = s.memory.stores .remaining from hstores]
    exact h.counter
  · refine htells.mono ?_
    rintro (q | _) hq
    · exact (hfinished q).symm.trans hq
    · trivial
  · intro msg hmsg q hq hfin
    simp only [hstores, hdone] at hmsg
    simp only [hfinished] at hfin
    exact h.told msg hmsg q hq hfin
  · exact h.matcher.congr rfl hviews hread

/-- Nothing is added. -/
theorem view_update_nil (v : View) (p : Nat) :
    { v with queues := Function.update v.queues p (v.queues p ++ []) } = v := by
  rw [List.append_nil, Function.update_eq_self]

/-- A submission begins. -/
theorem Kept.begin (h : Kept capacity n requests evs s) (hrunning : (s.threads p).finished = false)
    {request : OrderRequest} {rest : List OrderRequest}
    (htodo : (s.threads p).todo = request :: rest) (hidle : (s.threads p).call = .idle) {pos : Nat}
    {m : SharedMemory} {call : Spsc.Producer OrderRequest}
    (hs : (lane p).beginPush capacity s.memory request pos = some (m, call)) :
    Kept capacity n requests (evs ++ [.silent]) { s with
      memory := m
      threads := Function.update s.threads p { s.threads p with call := call } } := by
  have hrep := h.lanes p
  rw [hidle] at hrep
  obtain ⟨rfl, hrep'⟩ := hrep.beginPush h.consistent hs
  have hitem : call.item? = some request := by
    obtain ⟨⟨write, m₁⟩, -, hs⟩ := Option.bind_eq_some_iff.mp hs
    obtain ⟨-, rfl⟩ := Prod.mk.inj (Option.some.inj hs)
    rfl
  refine h.goesOn hrunning [] h.consistent ⟨?_, ?_⟩ hrunning rfl ?_
    (fun q _ => h.lanes q) (fun _ _ => ⟨rfl, rfl⟩) rfl h.tells (fun q => by simp [acceptedOn]) ?_
  · intro item hcall
    obtain rfl : request = item := Option.some.inj (hitem.symm.trans hcall)
    exact ⟨rest, htodo⟩
  · exact (h.threads p).finished
  · rw [List.append_nil]
    exact hrep'
  · rw [view_update_nil]
    exact history_silent h.history

/-- An access of a submission. -/
theorem Kept.submit (h : Kept capacity n requests evs s) (hp : p < n)
    (hrunning : (s.threads p).finished = false) {request : OrderRequest} {rest : List OrderRequest}
    (htodo : (s.threads p).todo = request :: rest) {pos : Nat} {m : SharedMemory}
    {call : Spsc.Producer OrderRequest} {ev : Spsc.Event OrderRequest}
    (hs : (lane p).producerStep .source s.memory pos (s.threads p).call = some (ev, m, call)) :
    Kept capacity n requests (evs ++ [producerEvent p request ev]) { s with
      memory := m
      threads := Function.update s.threads p { s.threads p with
        todo := if ev = .pushed request then rest else request :: rest
        call := call } } := by
  obtain ⟨hm, hrep, -, -, -⟩ := (h.lanes p).producerStep h.consistent hs
  obtain ⟨hstores, hviews⟩ := Lane.producerStep_keeps hs
  -- the item of the call is the request
  have hcurrent : ∀ item, (s.threads p).call.item? = some item → item = request := by
    intro item hitem
    obtain ⟨rest', hrest⟩ := (h.threads p).current item hitem
    exact (List.cons.inj (hrest.symm.trans htodo)).1
  have hpushed : ∀ item, ev = .pushed item → item = request := by
    intro item hev
    rcases Lane.producerStep_item hs with ⟨hsilent, -⟩ | ⟨-, hfull | ⟨item', hitem, hev'⟩⟩
    · cases hev.symm.trans hsilent
    · cases hev.symm.trans hfull
    · obtain rfl := Spsc.Event.pushed.inj (hev.symm.trans hev')
      exact hcurrent item hitem
  refine h.goesOn hrunning (Spsc.publishedValues [ev]) hm ⟨?_, ?_⟩ hrunning ?_ hrep
    (fun q hq => (h.lanes q).producerElsewhere h.consistent (lane_apart hq) hs) hstores
    (hviews .matcher (by simp [lane])) ?_ (fun q => acceptedOn_producerEvent hpushed) ?_
  · intro item hitem
    rcases Lane.producerStep_item hs with ⟨hsilent, hsame⟩ | ⟨hidle, -⟩
    · obtain rfl := hcurrent item (hsame.symm.trans hitem)
      exact ⟨rest, by rw [hsilent]; rfl⟩
    · rw [show _ = Spsc.Producer.idle from hidle] at hitem
      cases hitem
  · intro hfinished
    cases hrunning.symm.trans hfinished
  · rw [htodo]
    rcases Lane.producerStep_item hs with ⟨rfl, -⟩ | ⟨-, rfl | ⟨item, -, rfl⟩⟩
    · rfl
    · rfl
    · obtain rfl := hpushed item rfl
      simp [Spsc.publishedValues]
  · refine Lane.everywhere_producerStep (tells_joins n requests) ?_ h.tells
      (show s.Running (.producer p) from hrunning) h.consistent hs
    exact fun v w hv hle hsame => tells_grows hv hle (hsame _ (by simp [lane]))
  · have hrun : (s.view n evs).running[p]? = some true := by
      simp [State.view, hp, hrunning]
    rcases Lane.producerStep_item hs with ⟨rfl, -⟩ | ⟨-, rfl | ⟨item, -, rfl⟩⟩
    · rw [show Spsc.publishedValues [Spsc.Event.silent] = ([] : List OrderRequest) from rfl,
        view_update_nil]
      exact history_silent h.history
    · rw [show Spsc.publishedValues [Spsc.Event.full] = ([] : List OrderRequest) from rfl,
        view_update_nil]
      exact (Moves.refused p request).history h.history
    · obtain rfl := hpushed item rfl
      exact (Moves.accepted p item hrun).history h.history

/-- The producers that have not finished, as the counter counts them. -/
theorem Kept.finished_of_counter (hhist : History n evs (s.view n evs))
    (hcount : n ≤ s.memory.done (.store .remaining)) {q : Nat} (hq : q < n) :
    (s.threads q).finished = true := by
  by_contra hrunning
  have hrun : (s.view n evs).running[q]? = some true := by
    simpa [State.view, hq] using hrunning
  have hpos : 0 < (s.view n evs).running.count true :=
    List.count_pos_iff.mpr (List.mem_of_getElem? hrun)
  have hremaining := hhist.bounded.remaining
  have hdef : (s.view n evs).remaining = (n : Int) - s.memory.done (.store .remaining) := rfl
  omega

/-- The counter has not reached zero while a producer runs. -/
theorem Kept.counted_lt (h : Kept capacity n requests evs s) (hp : p < n)
    (hrunning : (s.threads p).finished = false) : s.memory.done (.store .remaining) < n := by
  by_contra hcount
  have hfinished := Kept.finished_of_counter h.history (Nat.le_of_not_lt hcount) hp
  cases hrunning.symm.trans hfinished

/-- The load of the counter that is part of `fetch_sub`. -/
theorem Kept.loadCounter (h : Kept capacity n requests evs s) {order : MemoryOrder}
    {pos value : Nat} {m : SharedMemory} (hpos : pos < n)
    (hload : s.memory.load (.producer p) order .remaining pos = some (value, m)) :
    Kept capacity n requests evs { s with memory := m } := by
  have hnumber : Tells n requests (ReleaseAcquire.View.upTo (.store .remaining) pos) := by
    intro hn
    rw [ReleaseAcquire.View.upTo, if_pos rfl] at hn
    exact absurd hpos (Nat.not_lt.mpr hn)
  have hm := h.consistent.load hload
  have hlanes := fun q => (h.lanes q).loadElsewhere h.consistent (by simp [lane]) (by simp [lane])
    hload
  have htells := h.tells.load (tells_joins n requests) hnumber hload
  obtain ⟨-, msg, -, -, rfl⟩ := Memory.load_eq_some.mp hload
  refine ⟨hm, hlanes, h.history, h.todo, h.threads, h.counter, htells, h.told, ?_⟩
  exact h.matcher.congr rfl (by simp [Function.update_of_ne]) fun _ => rfl

/-- Producer `p` has counted itself out, on top of the store `msg`. -/
def State.countOut (s : State σ) (p : Nat) (order : MemoryOrder)
    (msg : Message Thread Location (Nat × Nat) Nat) : State σ :=
  { s with
    memory := s.memory.add (.producer p) .remaining
      ⟨msg.value - 1, s.memory.released (.producer p) order .remaining ⊔ msg.view⟩
    threads := Function.update s.threads p { s.threads p with finished := true } }

section countOut

variable {order : MemoryOrder} {msg : Message Thread Location (Nat × Nat) Nat}

/-- Nothing is accepted. -/
theorem acceptedOn_finished (q : Nat) :
    acceptedOn q (evs ++ [.finished p]) = acceptedOn q evs := by
  simp [acceptedOn]

theorem Kept.history_countOut (h : Kept capacity n requests evs s) (hp : p < n)
    (hrunning : (s.threads p).finished = false) :
    History n (evs ++ [.finished p])
      ((s.countOut p order msg).view n (evs ++ [.finished p])) := by
  have hrun : (s.view n evs).running[p]? = some true := by
    simp [State.view, hp, hrunning]
  refine history_of_view ((Moves.finished p hrun).history h.history) ?_ ?_ ?_ rfl rfl
  · intro q
    rw [acceptedOn_finished]
    simp only [State.countOut, Memory.add_done]
    rw [View.next_of_ne (by simp)]
    rfl
  · refine List.ext_getElem (by simp [State.view]) fun q hq hq' => ?_
    by_cases hqp : p = q
    · subst hqp
      simp [State.countOut, State.view]
    · simp [State.countOut, State.view, hqp, Function.update_of_ne (Ne.symm hqp)]
  · have hleft := h.counted_lt hp hrunning
    simp only [State.countOut, Memory.add_done, View.next_self, State.view]
    omega

/-- The store counts down. -/
theorem Kept.counter_countOut (h : Kept capacity n requests evs s) (hp : p < n)
    (hrunning : (s.threads p).finished = false)
    (hmsg : (s.memory.stores .remaining)[s.memory.done (.store .remaining)]? = some msg)
    (k : Nat) (msg' : Message Thread Location (Nat × Nat) Nat)
    (hk : ((s.countOut p order msg).memory.stores .remaining)[k]? = some msg') :
    msg'.value + k = n := by
  rcases h.consistent.getElem?_add hk with hold | ⟨rfl, rfl⟩
  · exact h.counter k msg' hold
  · have hvalue := h.counter _ msg hmsg
    have hleft := h.counted_lt hp hrunning
    simp only
    omega

/-- **What it tells**: the pushes of `p`, and those of all who finished before. -/
theorem Kept.told_countOut (h : Kept capacity n requests evs s)
    (htodo : (s.threads p).todo = []) (horder : order.releases)
    (hmsg : (s.memory.stores .remaining)[s.memory.done (.store .remaining)]? = some msg)
    {q : Nat} (hq : q < n) (hfinished : ((s.countOut p order msg).threads q).finished = true) :
    (requests q).length ≤
      (s.memory.released (.producer p) order .remaining ⊔ msg.view) (.store (.write q)) := by
  rw [Memory.released_of_releases horder]
  simp only [State.countOut] at hfinished
  by_cases hqp : q = p
  · subst hqp
    refine Nat.le_trans (Nat.le_of_eq ?_) (Nat.le_max_left _ _)
    rw [Memory.stored_of_ne (by simp), ← h.todo q, htodo, List.append_nil,
      (h.lanes q).ok.published]
    exact (h.lanes q).ok.writer.symm
  · rw [Function.update_of_ne hqp] at hfinished
    exact (h.told msg hmsg q hq hfinished).trans (Nat.le_max_right _ _)

/-- Who knows of it when it is the last one knows all pushes. -/
theorem Kept.tells_countOut (h : Kept capacity n requests evs s) (hp : p < n)
    (hrunning : (s.threads p).finished = false) (htodo : (s.threads p).todo = [])
    (horder : order.releases)
    (hmsg : (s.memory.stores .remaining)[s.memory.done (.store .remaining)]? = some msg) :
    (s.countOut p order msg).memory.Everywhere (s.countOut p order msg).Running
      (Tells n requests) := by
  have hpos := h.consistent.position .remaining _ msg hmsg
  have hrunner : ∀ u, (s.countOut p order msg).Running u → s.Running u ∧ u ≠ .producer p := by
    rintro (q | _) hu
    · by_cases hqp : q = p
      · subst hqp
        simp [State.Running, State.countOut] at hu
      · exact ⟨by simpa [State.Running, State.countOut, hqp] using hu, by simpa using hqp⟩
    · exact ⟨trivial, by simp⟩
  refine (h.tells.mono fun u hu => (hrunner u hu).1).add (fun hu => ?_) ?_
  · exact absurd rfl (hrunner _ hu).2
  · intro hall q hq
    have hdone : n ≤ s.memory.done (.store .remaining) + 1 := by
      refine hall.trans (max_le ?_ (by rw [hpos]; exact Nat.le_succ _))
      rw [Memory.released_self]
    have hhistory : History n (evs ++ [.finished p])
        ((s.countOut p order msg).view n (evs ++ [.finished p])) := h.history_countOut hp hrunning
    refine h.told_countOut htodo horder hmsg hq (Kept.finished_of_counter hhistory ?_ hq)
    simpa [State.countOut] using hdone

theorem Kept.countOut (h : Kept capacity n requests evs s) (hp : p < n)
    (hrunning : (s.threads p).finished = false) (htodo : (s.threads p).todo = [])
    (horder : order.releases)
    (hmsg : (s.memory.stores .remaining)[s.memory.done (.store .remaining)]? = some msg) :
    Kept capacity n requests (evs ++ [.finished p]) (s.countOut p order msg) := by
  have hm : (s.countOut p order msg).memory.Consistent := h.consistent.replace hmsg _ _ _
  refine ⟨hm, ?_, h.history_countOut hp hrunning, ?_, ?_, h.counter_countOut hp hrunning hmsg,
    h.tells_countOut hp hrunning htodo horder hmsg, ?_, ?_⟩
  · intro q
    rw [acceptedOn_finished]
    have hknows : (lane q).Knows capacity.size
        (s.memory.released (.producer p) order .remaining ⊔ msg.view) := by
      rw [Memory.released_of_releases horder]
      exact Lane.knows_joins _ _ _ _
        (((h.lanes q).knows.thread _ trivial).store (by simp [lane]) (by simp [lane]))
        ((h.lanes q).knows.message _ msg (List.mem_of_getElem? hmsg))
    have hrep := (h.lanes q).addElsewhere hm h.consistent (by simp [lane]) (by simp [lane]) hknows
    by_cases hqp : q = p
    · subst hqp
      simpa [State.countOut] using hrep
    · simpa [State.countOut, Function.update_of_ne hqp] using hrep
  · intro q
    rw [acceptedOn_finished]
    by_cases hqp : q = p
    · subst hqp
      simpa [State.countOut] using h.todo q
    · simpa [State.countOut, Function.update_of_ne hqp] using h.todo q
  · intro q
    by_cases hqp : q = p
    · subst hqp
      simpa [State.countOut] using ⟨(h.threads q).current, fun _ => htodo⟩
    · simpa [State.countOut, Function.update_of_ne hqp] using h.threads q
  · intro msg' hmsg' q hq hfinished
    simp only [State.countOut, Memory.add_done, View.next_self] at hmsg'
    rcases h.consistent.getElem?_add hmsg' with hold | ⟨-, rfl⟩
    · have hlt := (List.getElem?_eq_some_iff.mp hold).1
      have hlen := h.consistent.length .remaining
      omega
    · exact h.told_countOut htodo horder hmsg hq hfinished
  · refine h.matcher.congr rfl ?_ fun q => ?_
    · simp [State.countOut, Function.update_of_ne]
    · simp only [State.countOut, Memory.add_done]
      exact View.next_of_ne (by simp)

end countOut

/-- **A producer counts itself out**, and tells of its pushes. -/
theorem Kept.finish (h : Kept capacity n requests evs s) (hp : p < n)
    (hrunning : (s.threads p).finished = false) (htodo : (s.threads p).todo = [])
    {order : MemoryOrder} (horder : order.releases) {m : SharedMemory}
    (hs : s.memory.modify (.producer p) order .remaining (· - 1) = some m) :
    Kept capacity n requests (evs ++ [.finished p]) { s with
      memory := m
      threads := Function.update s.threads p { s.threads p with finished := true } } := by
  obtain ⟨msg, m₁, hmsg, hload, hmodify⟩ :=
    h.consistent.modify (.producer p) order .remaining (· - 1)
  obtain rfl := Option.some.inj (hmodify.symm.trans hs)
  have h₁ := h.loadCounter (h.counted_lt hp hrunning) hload
  refine h₁.countOut hp hrunning htodo horder ?_
  obtain ⟨-, _, -, -, rfl⟩ := Memory.load_eq_some.mp hload
  exact hmsg

end producers

/-! ## Section 4: The matching thread's accesses -/

section matcher

variable {capacity : Capacity} {n : Nat} {requests : Nat → List OrderRequest}
  {evs : List Event} {ev : Event} {s s' : State σ} {p : Nat}

/-- An access of the matching thread leaves the producers and the counter as
    they are. -/
theorem Kept.matcherMoves (h : Kept capacity n requests evs s) (hthreads : s'.threads = s.threads)
    (hm : s'.memory.Consistent)
    (hlanes : ∀ p, (lane p).Rep capacity.size (acceptedOn p evs) s'.memory (s.threads p).call
      (s'.popping n p))
    (hcounter : s'.memory.stores .remaining = s.memory.stores .remaining ∧
      s'.memory.done (.store .remaining) = s.memory.done (.store .remaining))
    (htells : s'.memory.Everywhere s.Running (Tells n requests))
    (hmatcher : s'.MatcherOk capacity n) (hev : ∀ q, acceptedOn q [ev] = [])
    (hhistory : History n (evs ++ [ev]) (s'.view n (evs ++ [ev]))) :
    Kept capacity n requests (evs ++ [ev]) s' := by
  obtain ⟨hstores, hdone⟩ := hcounter
  have haccepted : ∀ q, acceptedOn q (evs ++ [ev]) = acceptedOn q evs := by
    intro q
    rw [acceptedOn_append, hev, List.append_nil]
  refine ⟨hm, ?_, hhistory, ?_, ?_, ?_, ?_, ?_, hmatcher⟩
  · intro q
    rw [haccepted, hthreads]
    exact hlanes q
  · intro q
    rw [haccepted, hthreads]
    exact h.todo q
  · rw [hthreads]
    exact h.threads
  · rw [hstores]
    exact h.counter
  · refine htells.mono fun t ht => ?_
    cases t with
    | producer q =>
      have hq : (s'.threads q).finished = false := ht
      rw [hthreads] at hq
      exact hq
    | matcher => trivial
  · rw [hstores, hdone, hthreads]
    exact h.told

theorem State.popping_idle {i drained : Nat} (hs : s.consumer = .sweep i drained .idle) (p : Nat) :
    s.popping n p = .idle := by
  unfold State.popping
  rw [hs]
  exact ite_self _

/-- A load outside of `try_pop`, in any phase. -/
theorem Kept.observe (h : Kept capacity n requests evs s) {l : Location} {pos value : Nat}
    {m : SharedMemory} (hload : s.memory.load .matcher .acquire l pos = some (value, m))
    (hidle : ∀ p, s.popping n p = .idle) {consumer : Consumer}
    (hidle' : ∀ p, State.popping n { s with memory := m, consumer := consumer } p = .idle)
    (hmatcher : State.MatcherOk capacity n { s with memory := m, consumer := consumer })
    {v : View} (hv : { s.view n evs with consumer := consumer.phase } = v)
    (hhistory : History n (evs ++ [.silent]) v) :
    Kept capacity n requests (evs ++ [.silent]) { s with memory := m, consumer := consumer } := by
  have hdone : m.done = s.memory.done := (Lane.load_spec h.consistent hload).2.2.2.1
  have hstores : m.stores = s.memory.stores := by
    obtain ⟨-, msg, -, -, rfl⟩ := Memory.load_eq_some.mp hload
    rfl
  refine h.matcherMoves rfl (h.consistent.load hload) ?_ ⟨by rw [hstores], by rw [hdone]⟩
    (h.tells.acquire (tells_joins n requests) h.consistent hload) hmatcher
    (fun q => by simp [acceptedOn]) ?_
  · intro q
    have hrep := (h.lanes q).load h.consistent hload
    rw [hidle] at hrep
    rw [hidle']
    exact hrep
  · subst hv
    refine history_of_view hhistory ?_ rfl ?_ rfl rfl
    · intro q
      show (acceptedOn q (evs ++ [.silent])).drop (m.done _) = _
      rw [acceptedOn_append, hdone]
      simp [acceptedOn, State.view]
    · show (n : Int) - m.done _ = _
      rw [hdone]
      rfl

/-- The test of the counter. -/
theorem Kept.test (h : Kept capacity n requests evs s) (hpc : s.consumer = .test) {pos value : Nat}
    {m : SharedMemory} (hload : s.memory.load .matcher .acquire .remaining pos = some (value, m)) :
    Kept capacity n requests (evs ++ [.silent]) { s with
      memory := m
      consumer := if value > 0 then .sweep 0 0 .idle else .scan 0 } := by
  have hidle : ∀ p, s.popping n p = .idle := by
    intro p
    simp [State.popping, hpc]
  have hphase : (s.view n evs).consumer = .test := by simp [State.view, hpc, Consumer.phase]
  obtain ⟨-, hle, hseen, -, msg, hmsg, rfl⟩ := Lane.load_spec h.consistent hload
  have hvalue := h.counter pos msg hmsg
  split
  · exact h.observe hload hidle (fun p => ite_self _) (fun _ => rfl) rfl
      ((Moves.busy hphase).history h.history)
  · -- nobody is left, and the matching thread knows what they pushed
    refine h.observe hload hidle (fun p => rfl) ?_ rfl
      ((Moves.deserted hphase ?_).history h.history)
    · show n ≤ m.views .matcher (.store .remaining)
      omega
    · simp only [State.view]
      omega

/-- In `all_lanes_empty`, the load of `read_idx_`. -/
theorem Kept.scan (h : Kept capacity n requests evs s) (hpc : s.consumer = .scan p) (hp : p < n)
    {pos value : Nat} {m : SharedMemory}
    (hload : s.memory.load .matcher .acquire (.read p) pos = some (value, m)) :
    Kept capacity n requests (evs ++ [.silent])
      { s with memory := m, consumer := .compare p value } := by
  have hidle : ∀ p, s.popping n p = .idle := by
    intro p
    simp [State.popping, hpc]
  have hknown : n ≤ s.memory.views .matcher (.store .remaining) := by
    have hmatcher := h.matcher
    unfold State.MatcherOk at hmatcher
    rw [hpc] at hmatcher
    exact hmatcher
  have hmono : s.memory.views .matcher ≤ m.views .matcher :=
    (Lane.Same.of_load hload : (lane p).Same _ _).consumer
  obtain ⟨hge, hle, -, hdone, msg, hmsg, rfl⟩ := Lane.load_spec h.consistent hload
  have hreader : s.memory.views .matcher (.store (.read p)) = s.memory.done (.store (.read p)) :=
    (h.lanes p).ok.reader
  have hvalue := (h.lanes p).ok.readIdx pos msg hmsg
  refine h.observe hload hidle (fun _ => rfl) ⟨hknown.trans (hmono _), hp, ?_⟩ ?_
    (history_silent h.history)
  · show msg.value = m.done _ % _
    rw [hvalue, hdone, show pos = s.memory.done (.store (.read p)) by omega]
  · simp [State.view, hpc, Consumer.phase]

/-- **The scan sees every push**: there, the load of `write_idx_`, and the
    comparison. -/
theorem Kept.compare (h : Kept capacity n requests evs s) {read : Nat}
    (hpc : s.consumer = .compare p read) {pos value : Nat} {m : SharedMemory}
    (hload : s.memory.load .matcher .acquire (.write p) pos = some (value, m)) :
    Kept capacity n requests (evs ++ [.silent]) { s with
      memory := m
      consumer := if read = value then .scan (p + 1) else .sweep 0 0 .idle } := by
  have hidle : ∀ p, s.popping n p = .idle := by
    intro p
    simp [State.popping, hpc]
  obtain ⟨hknown, hp, hread⟩ : n ≤ s.memory.views .matcher (.store .remaining) ∧ p < n ∧
      read = s.memory.done (.store (.read p)) % capacity.size := by
    have hmatcher := h.matcher
    unfold State.MatcherOk at hmatcher
    rw [hpc] at hmatcher
    exact hmatcher
  have hphase : (s.view n evs).consumer = .scan p := by simp [State.view, hpc, Consumer.phase]
  have hmono : s.memory.views .matcher ≤ m.views .matcher :=
    (Lane.Same.of_load hload : (lane p).Same _ _).consumer
  obtain ⟨hge, hle, -, -, msg, hmsg, rfl⟩ := Lane.load_spec h.consistent hload
  have hall := h.tells.thread .matcher trivial hknown p hp
  have hpublished : (acceptedOn p evs).length = s.memory.done (.store (.write p)) :=
    (h.lanes p).ok.published
  have htodo := congrArg List.length (h.todo p)
  rw [List.length_append] at htodo
  have hvalue := (h.lanes p).ok.writeIdx pos msg hmsg
  split
  · rename_i heq
    refine h.observe hload hidle (fun _ => rfl) (hknown.trans (hmono _)) rfl
      ((Moves.vacant p hphase ?_).history h.history)
    have hpassed : s.memory.done (.store (.read p)) + _ ≤ s.memory.done (.store (.write p)) :=
      (h.lanes p).passed_le h.consistent
    have hheld : s.memory.done (.store (.write p)) + _ <
      s.memory.done (.store (.read p)) + capacity.size := (h.lanes p).held_lt h.consistent
    refine List.drop_eq_nil_of_le ?_
    by_contra hlt
    refine mod_ne_of_lt (n := capacity.size) (i := s.memory.done (.store (.read p))) (j := pos)
      (by omega) (by omega) ?_
    rw [← hread, ← hvalue, heq]
  · exact h.observe hload hidle (fun p => ite_self _) (fun _ => rfl) rfl
      ((Moves.waiting p hphase).history h.history)

/-- A move of the matching thread without an access. -/
theorem Kept.internal (h : Kept capacity n requests evs s) (hmemory : s'.memory = s.memory)
    (hthreads : s'.threads = s.threads) (hidle : ∀ p, s.popping n p = .idle)
    (hidle' : ∀ p, s'.popping n p = .idle) (hmatcher : s'.MatcherOk capacity n)
    (hev : ∀ q, acceptedOn q [ev] = [])
    (hhistory : History n (evs ++ [ev]) { s.view n evs with
      nextLane := s'.nextLane
      consumer := s'.consumer.phase }) :
    Kept capacity n requests (evs ++ [ev]) s' := by
  refine h.matcherMoves hthreads (hmemory ▸ h.consistent) ?_ ⟨by rw [hmemory], by rw [hmemory]⟩
    (hmemory ▸ h.tells) hmatcher hev (history_of_view hhistory ?_ ?_ ?_ rfl rfl)
  · intro q
    have hrep := h.lanes q
    rw [hidle] at hrep
    rw [hidle', hmemory]
    exact hrep
  · intro q
    rw [acceptedOn_append, hev, List.append_nil, hmemory]
    rfl
  · rw [hthreads]
    rfl
  · rw [hmemory]
    rfl

/-- A `try_pop` begins. -/
theorem Kept.visit (h : Kept capacity n requests evs s) {i drained : Nat}
    (hpc : s.consumer = .sweep i drained .idle) (hlt : i < n) {pos : Nat} {m : SharedMemory}
    {call : Spsc.Consumer OrderRequest}
    (hs : (lane ((s.nextLane + i) % n)).beginPop s.memory pos = some (m, call)) :
    Kept capacity n requests (evs ++ [.silent])
      { s with memory := m, consumer := .sweep i drained call } := by
  have hrep := h.lanes ((s.nextLane + i) % n)
  rw [State.popping_idle hpc] at hrep
  obtain ⟨rfl, hrep'⟩ := hrep.beginPop h.consistent hs
  refine h.matcherMoves rfl h.consistent ?_ ⟨rfl, rfl⟩ h.tells ?_ (fun q => by simp [acceptedOn])
    (history_of_view (history_silent h.history) ?_ rfl rfl rfl ?_)
  · intro q
    simp only [State.popping]
    by_cases hq : (s.nextLane + i) % n = q
    · subst hq
      rw [if_pos rfl]
      exact hrep'
    · rw [if_neg hq]
      have hother := h.lanes q
      rw [State.popping_idle hpc] at hother
      exact hother
  · intro hge
    exact absurd hlt (Nat.not_lt.mpr hge)
  · intro q
    rw [acceptedOn_append]
    simp [acceptedOn, State.view]
  · simp [State.view, hpc, Consumer.phase]

section pop

variable {i drained : Nat} {call call' : Spsc.Consumer OrderRequest} {pos : Nat}
  {m : SharedMemory} {pev : Spsc.Event OrderRequest}

/-- An access of the `try_pop` in progress, whatever comes of it. -/
theorem Kept.popMoves (h : Kept capacity n requests evs s)
    (hpc : s.consumer = .sweep i drained call)
    (hs : (lane ((s.nextLane + i) % n)).consumerStep capacity .source s.memory pos call =
      some (pev, m, call')) (hmemory : s'.memory = m) (hthreads : s'.threads = s.threads)
    (hpopping : ∀ q, s'.popping n q = if (s.nextLane + i) % n = q then call' else .idle)
    (hmatcher : s'.MatcherOk capacity n) (hev : ∀ q, acceptedOn q [ev] = [])
    (hhistory : History n (evs ++ [ev]) { s.view n evs with
      queues := fun q => (acceptedOn q evs).drop (m.done (.store (.read q)))
      nextLane := s'.nextLane
      consumer := s'.consumer.phase }) :
    Kept capacity n requests (evs ++ [ev]) s' := by
  have hrep := h.lanes
  simp only [State.popping, hpc] at hrep
  have hmine := hrep ((s.nextLane + i) % n)
  rw [if_pos rfl] at hmine
  obtain ⟨hm, hmine', -, -, -⟩ := hmine.consumerStep h.consistent hs
  obtain ⟨hstores, -⟩ := Lane.consumerStep_keeps hs
  obtain ⟨hcounter, hdone⟩ := hstores .remaining (by simp [lane])
  refine h.matcherMoves hthreads (hmemory ▸ hm) ?_
    ⟨by rw [hmemory, hcounter], by rw [hmemory, hdone]⟩ ?_ hmatcher hev
    (history_of_view hhistory ?_ ?_ ?_ rfl rfl)
  · intro q
    rw [hmemory, hpopping]
    by_cases hq : (s.nextLane + i) % n = q
    · subst hq
      rw [if_pos rfl]
      exact hmine'
    · have hother := hrep q
      rw [if_neg hq] at hother ⊢
      exact hother.consumerElsewhere h.consistent (lane_apart (Ne.symm hq)) hs
  · rw [hmemory]
    refine Lane.everywhere_consumerStep (tells_joins n requests) ?_ h.tells
      (show s.Running .matcher from trivial) h.consistent hs
    exact fun v w hv hle hsame => tells_grows hv hle (hsame _ (by simp [lane]))
  · intro q
    rw [acceptedOn_append, hev, List.append_nil, hmemory]
  · rw [hthreads]
    rfl
  · rw [hmemory, hdone]
    rfl

/-- The queues, when nothing is passed. -/
theorem queues_same (hs : (lane p).consumerStep capacity .source s.memory pos call =
      some (pev, m, call'))
    (hdone : m.done (.store (.read p)) = s.memory.done (.store (.read p))) :
    (fun q => (acceptedOn q evs).drop (m.done (.store (.read q)))) = (s.view n evs).queues := by
  funext q
  by_cases hq : q = p
  · rw [hq, hdone]
    rfl
  · rw [((Lane.consumerStep_keeps hs).1 (.read q) (by simpa [lane] using hq)).2]
    rfl

/-- The `try_pop` goes on. -/
theorem Kept.popGoesOn (h : Kept capacity n requests evs s)
    (hpc : s.consumer = .sweep i drained call) (hlt : i < n)
    (hs : (lane ((s.nextLane + i) % n)).consumerStep capacity .source s.memory pos call =
      some (.silent, m, call')) :
    Kept capacity n requests (evs ++ [.silent])
      { s with memory := m, consumer := .sweep i drained call' } := by
  have hphase : (s.view n evs).consumer = .sweep i drained := by
    simp [State.view, hpc, Consumer.phase]
  refine h.popMoves hpc hs rfl rfl (fun _ => rfl) (fun hge => absurd hlt (Nat.not_lt.mpr hge))
    (fun q => by simp [acceptedOn]) ?_
  rcases Lane.consumerStep_shows hs with ⟨hdone, -⟩ | ⟨out, read, -, hev, -⟩
  · rw [queues_same hs hdone]
    have hsame := history_silent h.history
    rw [show State.view n evs s = { s.view n evs with consumer := .sweep i drained } by
      rw [← hphase]] at hsame
    exact hsame
  · cases hev

/-- The `try_pop` finds nothing. -/
theorem Kept.popEmpty (h : Kept capacity n requests evs s)
    (hpc : s.consumer = .sweep i drained call) (hlt : i < n)
    (hs : (lane ((s.nextLane + i) % n)).consumerStep capacity .source s.memory pos call =
      some (.empty, m, call')) :
    Kept capacity n requests (evs ++ [.passed ((s.nextLane + i) % n)])
      { s with memory := m, consumer := .sweep (i + 1) drained call' } := by
  have hphase : (s.view n evs).consumer = .sweep i drained := by
    simp [State.view, hpc, Consumer.phase]
  rcases Lane.consumerStep_shows hs with ⟨hdone, hsilent | ⟨-, rfl⟩⟩ | ⟨out, read, -, hev, -⟩
  · cases hsilent
  · refine h.popMoves hpc hs rfl rfl (fun q => ?_) (fun _ => rfl) (fun q => by simp [acceptedOn]) ?_
    · rw [State.popping_idle rfl, ite_self]
    · rw [queues_same hs hdone]
      exact history_missed h.history hphase hlt
  · cases hev

/-- The `try_pop` returns the first request that waits. -/
theorem Kept.popValue (h : Kept capacity n requests evs s)
    (hpc : s.consumer = .sweep i drained call) (hlt : i < n) {request : OrderRequest}
    (hs : (lane ((s.nextLane + i) % n)).consumerStep capacity .source s.memory pos call =
      some (.popped request, m, call')) (engine : σ) :
    Kept capacity n requests (evs ++ [.handled ((s.nextLane + i) % n) request])
      { s with
        memory := m, consumer := .sweep (i + 1) (drained + 1) call', engine := engine } := by
  have hphase : (s.view n evs).consumer = .sweep i drained := by
    simp [State.view, hpc, Consumer.phase]
  rcases Lane.consumerStep_shows hs with ⟨-, hev | ⟨hev, -⟩⟩ | ⟨out, read, rfl, hev, rfl, hdone⟩
  · cases hev
  · cases hev
  · obtain rfl := Spsc.Event.popped.inj hev
    refine h.popMoves hpc hs rfl rfl (fun q => ?_) (fun _ => rfl) (fun q => by simp [acceptedOn]) ?_
    · rw [State.popping_idle rfl, ite_self]
    · have hrep := (h.lanes ((s.nextLane + i) % n)).consumer
      simp only [State.popping, hpc, if_true] at hrep
      have hget : (acceptedOn ((s.nextLane + i) % n) evs)[
          s.memory.done (.store (.read ((s.nextLane + i) % n)))]? = some request := hrep.2.2
      obtain ⟨hlen, hget⟩ := List.getElem?_eq_some_iff.mp hget
      have hpassed : m.done (.store (.read ((s.nextLane + i) % n))) =
        s.memory.done (.store (.read ((s.nextLane + i) % n))) + 1 := hdone
      have hqueue : (s.view n evs).queues ((s.nextLane + i) % n) = request ::
          (acceptedOn ((s.nextLane + i) % n) evs).drop
            (m.done (.store (.read ((s.nextLane + i) % n)))) := by
        simp only [State.view]
        rw [List.drop_eq_getElem_cons hlen, hget, hpassed]
      have hothers : (fun q => (acceptedOn q evs).drop (m.done (.store (.read q)))) =
          Function.update (s.view n evs).queues ((s.nextLane + i) % n)
            ((acceptedOn ((s.nextLane + i) % n) evs).drop
              (m.done (.store (.read ((s.nextLane + i) % n))))) := by
        funext q
        by_cases hq : q = (s.nextLane + i) % n
        · subst hq
          rw [Function.update_self]
        · rw [Function.update_of_ne hq,
            ((Lane.consumerStep_keeps hs).1 (.read q) (by simpa [lane] using hq)).2]
          rfl
      rw [hothers]
      exact (Moves.handled i drained request _ hphase hlt hqueue).history h.history

end pop

end matcher

end SharedGateway

end LightningLob
