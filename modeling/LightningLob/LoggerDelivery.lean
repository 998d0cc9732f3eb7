import LightningLob.Logger
import LightningLob.SpscQueue
import Mathlib.Data.List.TakeWhile

/-! # The logger writes what it accepted, all of it and in order

    The ring buffer is seen as a FIFO queue, and every step of the two threads
    as a move on it.  `pushed_count_` is bumped after the push and
    `processed_count_` after the write, so that between the steps each may lag
    one behind, and the worker may even process a record before it is counted.
    `flush` is right all the same: nothing is pushed while its thread waits. -/

namespace LightningLob

namespace Logging

/-! ## Section 1: Histories -/

/-- What became of the records, in the order of the calls: whether the queue
    took them. -/
def outcomes (evs : List Event) : List (LogRecord × Bool) :=
  evs.filterMap fun
    | .accepted record => some (record, true)
    | .refused record => some (record, false)
    | _ => none

/-- The records the queue took. -/
def acceptedRecords (evs : List Event) : List LogRecord :=
  ((outcomes evs).filter Prod.snd).map Prod.fst

/-- The records the queue refused. -/
def refusedRecords (evs : List Event) : List LogRecord :=
  ((outcomes evs).filter fun o => !o.2).map Prod.fst

/-- The records written to the stream. -/
def writtenRecords (evs : List Event) : List LogRecord :=
  evs.filterMap fun
    | .wrote record => some record
    | _ => none

/-- The records the queue took after the stop request. -/
def acceptedAfterStop (evs : List Event) : List LogRecord :=
  acceptedRecords (evs.dropWhile (· ≠ .stopRequested))

/-- The records of the calls at or above the minimum level. -/
def requested (minLevel : LogLevel) (actions : List Action) : List LogRecord :=
  actions.filterMap fun
    | .log level message now =>
        if level.toNat < minLevel.toNat then none else some (.ofMessage now level message)
    | _ => none

/-- The record of a call that has not tried to push it yet. -/
def Caller.undecided : Caller → List LogRecord
  | .push record => [record]
  | _ => []

/-- One if a call is about to count its record as pushed. -/
def Caller.uncountedPush : Caller → Nat
  | .countPushed => 1
  | _ => 0

/-- One if a call is about to count its record as dropped. -/
def Caller.uncountedDrop : Caller → Nat
  | .countDropped => 1
  | _ => 0

/-- The record the worker has popped and not yet written. -/
def Worker.inHand : Worker → List LogRecord
  | .write _ record => [record]
  | _ => []

/-- One if the worker is about to count a record as processed. -/
def Worker.uncounted : Worker → Nat
  | .count _ => 1
  | _ => 0

/-- The worker has left its first loop. -/
def Worker.leaving : Worker → Bool
  | .test => false
  | .pop draining => draining
  | .write draining _ => draining
  | .count draining => draining
  | .done => true

/-! ## Section 2: The ring buffer as a queue -/

/-- The logger and its threads, with a queue for the ring buffer. -/
structure View where
  queue : List LogRecord
  out : List Char
  minLevel : LogLevel
  dropped : Nat
  pushed : Nat
  processed : Nat
  stopRequested : Bool
  caller : Caller
  worker : Worker

def State.view (s : State) (queue : List LogRecord) : View :=
  ⟨queue, s.logger.out, s.logger.minLevel, s.logger.dropped, s.logger.pushedCount,
    s.logger.processedCount, s.stopRequested, s.caller, s.worker⟩

/-- What each action does to the queue and shows. -/
inductive Moves (v : View) : Action → Event → View → Prop where
  | filtered (level : LogLevel) (message : List Char) (now : Timestamp)
      (hlow : level.toNat < v.minLevel.toNat) : Moves v (.log level message now) .filtered v
  | called (level : LogLevel) (message : List Char) (now : Timestamp) (hpc : v.caller = .idle)
      (hlevel : ¬ level.toNat < v.minLevel.toNat) :
      Moves v (.log level message now) (.called (.ofMessage now level message))
        { v with caller := .push (.ofMessage now level message) }
  | accepted (record : LogRecord) (hpc : v.caller = .push record) :
      Moves v .caller (.accepted record)
        { v with queue := v.queue ++ [record], caller := .countPushed }
  | refused (record : LogRecord) (hpc : v.caller = .push record) :
      Moves v .caller (.refused record) { v with caller := .countDropped }
  | countPushed (hpc : v.caller = .countPushed) :
      Moves v .caller .logged { v with pushed := v.pushed + 1, caller := .idle }
  | countDropped (hpc : v.caller = .countDropped) :
      Moves v .caller .logged { v with dropped := v.dropped + 1, caller := .idle }
  | flushBegan (hpc : v.caller = .idle) :
      Moves v .flush .flushBegan { v with caller := .wait v.pushed }
  | waits (target : Nat) (hpc : v.caller = .wait target) : Moves v .caller .silent v
  | flushed (target : Nat) (hpc : v.caller = .wait target) (hle : target ≤ v.processed) :
      Moves v .caller .flushed { v with caller := .idle }
  | stopRequested (hnot : v.stopRequested = false) :
      Moves v .stop .stopRequested { v with stopRequested := true }
  | tested (hpc : v.worker = .test) :
      Moves v .worker .silent { v with worker := .pop v.stopRequested }
  | popped (draining : Bool) (record : LogRecord) (rest : List LogRecord)
      (hpc : v.worker = .pop draining) (hq : v.queue = record :: rest) :
      Moves v .worker .silent { v with queue := rest, worker := .write draining record }
  | slept (hpc : v.worker = .pop false) (hq : v.queue = []) :
      Moves v .worker .silent { v with worker := .test }
  | exited (hpc : v.worker = .pop true) (hq : v.queue = []) :
      Moves v .worker .exited { v with worker := .done }
  | wrote (draining : Bool) (record : LogRecord) (hpc : v.worker = .write draining record) :
      Moves v .worker (.wrote record)
        { v with out := v.out ++ record.line, worker := .count draining }
  | counted (draining : Bool) (hpc : v.worker = .count draining) :
      Moves v .worker .silent
        { v with processed := v.processed + 1,
                 worker := if draining then .pop true else .test }

section refinement

variable {capacity : Capacity} {s s' : State} {q : List LogRecord} {a : Action} {ev : Event}

/-- The caller is never stuck inside a call. -/
theorem callerStep_moves (h : s.logger.queue.Rep capacity q) (hpc : s.caller ≠ .idle) :
    ∃ ev s' q', callerStep capacity s = some (ev, s') ∧ s'.logger.queue.Rep capacity q' ∧
      Moves (s.view q) .caller ev (s'.view q') := by
  unfold callerStep
  cases hcaller : s.caller with
  | idle => exact absurd hcaller hpc
  | push record =>
    dsimp only
    rcases h.tryPush record with ⟨-, hfull⟩ | ⟨queue, -, hpush, hrep⟩
    · rw [hfull]
      exact ⟨_, _, q, rfl, h, .refused record hcaller⟩
    · rw [hpush]
      exact ⟨_, _, q ++ [record], rfl, hrep, .accepted record hcaller⟩
  | countPushed => exact ⟨_, _, q, rfl, h, .countPushed hcaller⟩
  | countDropped => exact ⟨_, _, q, rfl, h, .countDropped hcaller⟩
  | wait target =>
    by_cases hlt : s.logger.processedCount < target
    · exact ⟨_, _, q, if_pos hlt, h, .waits target hcaller⟩
    · exact ⟨_, _, q, if_neg hlt, h, .flushed target hcaller (Nat.not_lt.mp hlt)⟩

/-- The worker is never stuck before it has exited. -/
theorem workerStep_moves (h : s.logger.queue.Rep capacity q) (hpc : s.worker ≠ .done) :
    ∃ ev s' q', workerStep capacity s = some (ev, s') ∧ s'.logger.queue.Rep capacity q' ∧
      Moves (s.view q) .worker ev (s'.view q') := by
  unfold workerStep
  cases hworker : s.worker with
  | test => exact ⟨_, _, q, rfl, h, .tested hworker⟩
  | pop draining =>
    dsimp only
    rcases h.tryPop with ⟨hq, hempty⟩ | ⟨record, rest, queue, hq, hpop, hrep⟩
    · rw [hempty]
      cases draining with
      | true => exact ⟨_, _, q, rfl, h, .exited hworker hq⟩
      | false => exact ⟨_, _, q, rfl, h, .slept hworker hq⟩
    · rw [hpop]
      exact ⟨_, _, rest, rfl, hrep, .popped draining record rest hworker hq⟩
  | write draining record => exact ⟨_, _, q, rfl, h, .wrote draining record hworker⟩
  | count draining => exact ⟨_, _, q, rfl, h, .counted draining hworker⟩
  | done => exact absurd hworker hpc

/-- Every step moves the queue. -/
theorem step_moves (h : s.logger.queue.Rep capacity q) (hs : step capacity s a = some (ev, s')) :
    ∃ q', s'.logger.queue.Rep capacity q' ∧ Moves (s.view q) a ev (s'.view q') := by
  cases a with
  | log level message now =>
    simp only [step] at hs
    split at hs
    · rename_i hcaller
      split at hs
      · rename_i hlow
        obtain ⟨rfl, rfl⟩ := Prod.mk.inj (Option.some.inj hs)
        exact ⟨q, h, .filtered level message now hlow⟩
      · rename_i hlevel
        obtain ⟨rfl, rfl⟩ := Prod.mk.inj (Option.some.inj hs)
        exact ⟨q, h, .called level message now hcaller hlevel⟩
    · cases hs
  | flush =>
    simp only [step] at hs
    split at hs
    · rename_i hcaller
      obtain ⟨rfl, rfl⟩ := Prod.mk.inj (Option.some.inj hs)
      exact ⟨q, h, .flushBegan hcaller⟩
    · cases hs
  | caller =>
    have hpc : s.caller ≠ .idle := by
      intro hidle
      simp [step, callerStep, hidle] at hs
    obtain ⟨ev', s₁, q', hs₁, hrep, hmoves⟩ := callerStep_moves h hpc
    obtain ⟨rfl, rfl⟩ := Prod.mk.inj (Option.some.inj (hs₁.symm.trans hs))
    exact ⟨q', hrep, hmoves⟩
  | worker =>
    have hpc : s.worker ≠ .done := by
      intro hdone
      simp [step, workerStep, hdone] at hs
    obtain ⟨ev', s₁, q', hs₁, hrep, hmoves⟩ := workerStep_moves h hpc
    obtain ⟨rfl, rfl⟩ := Prod.mk.inj (Option.some.inj (hs₁.symm.trans hs))
    exact ⟨q', hrep, hmoves⟩
  | stop =>
    simp only [step] at hs
    split at hs
    · cases hs
    · rename_i hnot
      obtain ⟨rfl, rfl⟩ := Prod.mk.inj (Option.some.inj hs)
      exact ⟨q, h, .stopRequested (Bool.eq_false_iff.mpr hnot)⟩

end refinement

/-! ## Section 3: What the history says of the queue -/

section histories

variable {v v' : View} {a : Action} {ev : Event} {evs : List Event} {actions : List Action}
  {minLevel : LogLevel}

@[simp] theorem outcomes_append (xs ys : List Event) :
    outcomes (xs ++ ys) = outcomes xs ++ outcomes ys := List.filterMap_append

@[simp] theorem writtenRecords_append (xs ys : List Event) :
    writtenRecords (xs ++ ys) = writtenRecords xs ++ writtenRecords ys := List.filterMap_append

@[simp] theorem acceptedRecords_append (xs ys : List Event) :
    acceptedRecords (xs ++ ys) = acceptedRecords xs ++ acceptedRecords ys := by
  simp [acceptedRecords]

@[simp] theorem refusedRecords_append (xs ys : List Event) :
    refusedRecords (xs ++ ys) = refusedRecords xs ++ refusedRecords ys := by
  simp [refusedRecords]

/-- Every call that passed the level test has one outcome, or is about to. -/
structure Decided (minLevel : LogLevel) (actions : List Action) (evs : List Event) (v : View) :
    Prop where
  level : v.minLevel = minLevel
  calls : requested minLevel actions = (outcomes evs).map Prod.fst ++ v.caller.undecided

theorem Moves.decided (h : Moves v a ev v') (hold : Decided minLevel actions evs v) :
    Decided minLevel (actions ++ [a]) (evs ++ [ev]) v' := by
  obtain ⟨hlevel, hcalls⟩ := hold
  have happend : requested minLevel (actions ++ [a]) =
      requested minLevel actions ++ requested minLevel [a] := List.filterMap_append
  cases h with
  | filtered level message now hlow =>
    rw [hlevel] at hlow
    exact ⟨hlevel, by rw [happend, hcalls]; simp [requested, outcomes, hlow]⟩
  | called level message now hpc hnot =>
    rw [hlevel] at hnot
    refine ⟨hlevel, ?_⟩
    rw [happend, hcalls, hpc]
    simp [requested, outcomes, Caller.undecided, Nat.not_lt.mp hnot]
  | accepted record hpc | refused record hpc =>
    refine ⟨hlevel, ?_⟩
    rw [happend, hcalls, hpc]
    simp [requested, outcomes, Caller.undecided]
  | countPushed hpc | countDropped hpc | flushBegan hpc | waits target hpc | flushed target hpc =>
    refine ⟨hlevel, ?_⟩
    rw [happend, hcalls, hpc]
    simp [requested, outcomes, Caller.undecided]
  | _ => exact ⟨hlevel, by rw [happend, hcalls]; simp [requested, outcomes]⟩

/-- The records accepted and not written are in the queue, but for the one in
    the worker's hand, and the stream holds the lines of those written. -/
structure Conserved (evs : List Event) (v : View) : Prop where
  records : acceptedRecords evs = writtenRecords evs ++ v.worker.inHand ++ v.queue
  lines : v.out = (writtenRecords evs).flatMap LogRecord.line

theorem Moves.conserved (h : Moves v a ev v') (hold : Conserved evs v) :
    Conserved (evs ++ [ev]) v' := by
  obtain ⟨hrecords, hlines⟩ := hold
  constructor
  · rw [acceptedRecords_append, writtenRecords_append, hrecords]
    cases h with
    | tested hpc | slept hpc | exited hpc hq | wrote draining record hpc =>
      simp [acceptedRecords, outcomes, writtenRecords, Worker.inHand, hpc]
    | popped draining record rest hpc hq =>
      simp [acceptedRecords, outcomes, writtenRecords, Worker.inHand, hpc, hq]
    | counted draining hpc =>
      cases draining <;> simp [acceptedRecords, outcomes, writtenRecords, Worker.inHand, hpc]
    | _ => simp [acceptedRecords, outcomes, writtenRecords]
  · rw [writtenRecords_append, List.flatMap_append, ← hlines]
    cases h with
    | wrote => simp [writtenRecords]
    | _ => exact (List.append_nil _).symm

/-- Each counter counts its records, but for one that is about to be
    counted. -/
structure Counted (evs : List Event) (v : View) : Prop where
  pushed : v.pushed + v.caller.uncountedPush = (acceptedRecords evs).length
  dropped : v.dropped + v.caller.uncountedDrop = (refusedRecords evs).length
  processed : v.processed + v.worker.uncounted = (writtenRecords evs).length

theorem Moves.counters (h : Moves v a ev v') (hold : Counted evs v) : Counted (evs ++ [ev]) v' := by
  obtain ⟨hpushed, hdropped, hprocessed⟩ := hold
  constructor
  · rw [acceptedRecords_append, List.length_append, ← hpushed]
    cases h with
    | called _ _ _ hpc | accepted _ hpc | refused _ hpc | countPushed hpc | countDropped hpc
      | flushBegan hpc | flushed _ hpc =>
      simp [acceptedRecords, outcomes, Caller.uncountedPush, hpc]
    | _ => rfl
  · rw [refusedRecords_append, List.length_append, ← hdropped]
    cases h with
    | called _ _ _ hpc | accepted _ hpc | refused _ hpc | countPushed hpc | countDropped hpc
      | flushBegan hpc | flushed _ hpc =>
      simp [refusedRecords, outcomes, Caller.uncountedDrop, hpc]
    | _ => rfl
  · rw [writtenRecords_append, List.length_append, ← hprocessed]
    cases h with
    | tested hpc | slept hpc | exited hpc | popped _ _ _ hpc | wrote _ _ hpc =>
      simp [writtenRecords, Worker.uncounted, hpc]
    | counted draining hpc => cases draining <;> simp [writtenRecords, Worker.uncounted, hpc]
    | _ => rfl

/-- While `flush` waits nothing is accepted, and when it returns all that was
    accepted is written. -/
structure Flushes (evs : List Event) (v : View) : Prop where
  waiting : ∀ target, v.caller = .wait target → target = (acceptedRecords evs).length
  returned : ∀ xs zs, evs = xs ++ .flushed :: zs → writtenRecords xs = acceptedRecords xs

/-- Enough records are counted as processed, so all are written. -/
theorem Conserved.all_written (h : Conserved evs v) (hcount : Counted evs v)
    (hle : (acceptedRecords evs).length ≤ v.processed) :
    writtenRecords evs = acceptedRecords evs := by
  have hprefix : writtenRecords evs <+: acceptedRecords evs :=
    ⟨v.worker.inHand ++ v.queue, by rw [h.records, List.append_assoc]⟩
  have hprocessed := hcount.processed
  exact hprefix.eq_of_length_le (by omega)

theorem Moves.flushes (h : Moves v a ev v') (hrecords : Conserved evs v) (hcount : Counted evs v)
    (hold : Flushes evs v) : Flushes (evs ++ [ev]) v' := by
  constructor
  · intro target hpc'
    rw [acceptedRecords_append, List.length_append]
    cases h with
    | called | accepted | refused | countPushed | countDropped | flushed => cases hpc'
    | filtered | waits | stopRequested | tested | popped | slept | exited | wrote | counted =>
      simp [hold.waiting target hpc', acceptedRecords, outcomes]
    | flushBegan hpc =>
      have hpushed := hcount.pushed
      simp only [hpc, Caller.uncountedPush] at hpushed
      obtain rfl := Caller.wait.inj hpc'
      simp [acceptedRecords, outcomes] at hpushed ⊢
      omega
  · intro xs zs heq
    rcases List.eq_nil_or_concat zs with rfl | ⟨zs, last, rfl⟩
    · -- the flush that returns now
      obtain ⟨rfl, hev⟩ := List.append_inj' heq rfl
      obtain rfl := List.singleton_inj.mp hev
      cases h with
      | flushed target hpc hle =>
        rw [hold.waiting target hpc] at hle
        exact hrecords.all_written hcount hle
    · rw [List.concat_eq_append, ← List.cons_append, ← List.append_assoc] at heq
      exact hold.returned xs zs (List.append_inj_left' heq rfl)

/-- The worker drains only after a stop request, and exits on an empty queue,
    which stays so unless a record is accepted later. -/
structure Closing (evs : List Event) (v : View) : Prop where
  requested : v.stopRequested = true ↔ .stopRequested ∈ evs
  leaving : v.worker.leaving = true → v.stopRequested = true
  exited : v.worker = .done → acceptedAfterStop evs = [] → v.queue = []

/-- From the stop request on, what is accepted is accepted after it. -/
theorem acceptedAfterStop_append (hmem : .stopRequested ∈ evs) :
    acceptedAfterStop (evs ++ [ev]) = acceptedAfterStop evs ++ acceptedRecords [ev] := by
  unfold acceptedAfterStop
  have hne : evs.dropWhile (· ≠ .stopRequested) ≠ [] := by
    intro hnil
    simpa using List.dropWhile_eq_nil_iff.mp hnil _ hmem
  rw [List.dropWhile_append, if_neg (by simpa using hne), acceptedRecords_append]

theorem Moves.closing (h : Moves v a ev v') (hold : Closing evs v) : Closing (evs ++ [ev]) v' := by
  obtain ⟨hreq, hleave, hexit⟩ := hold
  refine ⟨?_, ?_, ?_⟩
  · cases h with
    | stopRequested => simp
    | _ => simpa using hreq
  · cases h with
    | stopRequested => simp
    | tested hpc => exact id
    | slept hpc => simp [Worker.leaving]
    | popped draining _ _ hpc | wrote draining _ hpc | exited hpc =>
      rw [hpc] at hleave
      exact hleave
    | counted draining hpc =>
      rw [hpc] at hleave
      cases draining with
      | true => exact hleave
      | false => simp [Worker.leaving]
    | _ => exact hleave
  · -- after the exit, what is accepted shows in the history
    have hlate : v.worker = .done → acceptedAfterStop (evs ++ [ev]) = [] →
        v.queue = [] ∧ acceptedRecords [ev] = [] := by
      intro hdone hnone
      have hmem := hreq.mp (hleave (by rw [hdone]; rfl))
      rw [acceptedAfterStop_append hmem, List.append_eq_nil_iff] at hnone
      exact ⟨hexit hdone hnone.1, hnone.2⟩
    intro hdone hnone
    cases h with
    | exited hpc hq => exact hq
    | tested | slept | popped | wrote => cases hdone
    | counted draining hpc => cases draining <;> cases hdone
    | accepted record hpc => simpa [acceptedRecords, outcomes] using (hlate hdone hnone).2
    | _ => exact (hlate hdone hnone).1

end histories

/-! ## Section 4: Every interleaving -/

/-- After the actions and what they showed, whoever moved when. -/
structure Delivers (capacity : Capacity) (minLevel : LogLevel) (actions : List Action)
    (evs : List Event) (s : State) : Prop where
  /-- What is written is the first part of what the queue accepted. -/
  in_order : writtenRecords evs <+: acceptedRecords evs
  /-- The stream holds the lines of what is written. -/
  lines : s.logger.out = (writtenRecords evs).flatMap LogRecord.line
  /-- Every call at or above the minimum level has one outcome, but for the
      call in progress. -/
  decided : requested minLevel actions = (outcomes evs).map Prod.fst ++ s.caller.undecided
  /-- The records refused are counted, but for the call in progress. -/
  dropped : s.logger.dropped + s.caller.uncountedDrop = (refusedRecords evs).length
  /-- When `flush` returns, all that was accepted before it began is written. -/
  flushed : ∀ xs ys zs, evs = xs ++ .flushBegan :: (ys ++ .flushed :: zs) →
    acceptedRecords xs <+: writtenRecords (xs ++ .flushBegan :: ys)
  /-- When the worker has exited and nothing was accepted after the stop
      request, all that was accepted is written. -/
  exited : s.worker = .done → acceptedAfterStop evs = [] →
    writtenRecords evs = acceptedRecords evs
  /-- Nobody gets stuck or leaves the buffer. -/
  in_range : (s.caller ≠ .idle → (step capacity s .caller).isSome) ∧
    (s.worker ≠ .done → (step capacity s .worker).isSome)

section runs

variable {capacity : Capacity} {minLevel : LogLevel} {actions : List Action} {evs : List Event}
  {s : State} {q : List LogRecord}

/-- What holds of the history and the queue between two steps. -/
structure History (minLevel : LogLevel) (actions : List Action) (evs : List Event) (v : View) :
    Prop where
  decided : Decided minLevel actions evs v
  conserved : Conserved evs v
  counted : Counted evs v
  flushes : Flushes evs v
  closing : Closing evs v

theorem Moves.history {v v' : View} {a : Action} {ev : Event} (h : Moves v a ev v')
    (hold : History minLevel actions evs v) :
    History minLevel (actions ++ [a]) (evs ++ [ev]) v' :=
  ⟨h.decided hold.decided, h.conserved hold.conserved, h.counters hold.counted,
    h.flushes hold.conserved hold.counted hold.flushes, h.closing hold.closing⟩

theorem history_start : History minLevel [] [] ((start capacity minLevel).view []) where
  decided := ⟨rfl, rfl⟩
  conserved := ⟨rfl, rfl⟩
  counted := ⟨rfl, rfl, rfl⟩
  flushes := ⟨fun _ hpc => (by cases hpc), fun xs zs heq => by simp at heq⟩
  closing := ⟨by simp [State.view, start], fun hleave => (by cases hleave),
    fun hdone => by cases hdone⟩

theorem History.delivers (hist : History minLevel actions evs (s.view q))
    (h : s.logger.queue.Rep capacity q) : Delivers capacity minLevel actions evs s where
  in_order := ⟨s.worker.inHand ++ q, by rw [← List.append_assoc]; exact hist.conserved.records.symm⟩
  lines := hist.conserved.lines
  decided := hist.decided.calls
  dropped := hist.counted.dropped
  flushed := by
    intro xs ys zs heq
    have hall := hist.flushes.returned (xs ++ .flushBegan :: ys) zs (by rw [heq]; simp)
    rw [hall, acceptedRecords_append]
    exact List.prefix_append _ _
  exited := by
    intro hdone hnone
    have hrecords := hist.conserved.records
    have hempty : (s.view q).queue = [] := hist.closing.exited hdone hnone
    rw [hrecords, hempty]
    simp [State.view, hdone, Worker.inHand]
  in_range := by
    constructor
    · intro hpc
      obtain ⟨ev, s', q', hs, -⟩ := callerStep_moves h hpc
      exact Option.isSome_of_eq_some hs
    · intro hpc
      obtain ⟨ev, s', q', hs, -⟩ := workerStep_moves h hpc
      exact Option.isSome_of_eq_some hs

/-- Between two steps of a run the buffer stands for a queue that fits the
    history. -/
theorem exec_history (hrun : Runs.exec (step capacity) (start capacity minLevel) actions =
    some (evs, s)) :
    ∃ q, s.logger.queue.Rep capacity q ∧ History minLevel actions evs (s.view q) :=
  Runs.exec_traced
    (P := fun actions evs s =>
      ∃ q, s.logger.queue.Rep capacity q ∧ History minLevel actions evs (s.view q))
    (fun actions evs s a ev s' ⟨q, hrep, hist⟩ hs => by
      obtain ⟨q', hrep', hmoves⟩ := step_moves hrep hs
      exact ⟨q', hrep', hmoves.history hist⟩)
    actions [] [] (start capacity minLevel) ⟨[], .create, history_start⟩ hrun

end runs

/-- **Nothing lost, nothing reordered**: in whatever order the caller logs and
    flushes, the worker runs and the stop is requested, what the queue accepts
    is written in order, `flush` returns when it is, and the worker leaves
    nothing behind. -/
theorem logger_delivers (capacity : Capacity) (minLevel : LogLevel) (actions : List Action)
    (evs : List Event) (s : State)
    (hrun : Runs.exec (step capacity) (start capacity minLevel) actions = some (evs, s)) :
    Delivers capacity minLevel actions evs s := by
  obtain ⟨q, hrep, hist⟩ := exec_history hrun
  exact hist.delivers hrep

/-- A queue with room for one record: the second is dropped, the third is
    below the level, and the stop is requested while a flush waits for the
    first. -/
theorem logger_delivers_one_dropped :
    ∃ (actions : List Action) (evs : List Event) (s : State),
      (s.worker = .done ∧ s.logger.dropped = 1 ∧ .flushed ∈ evs ∧ acceptedAfterStop evs = [] ∧
        s.logger.out = "[             7ns] [WARN ] thin book\n".toList) ∧
      Delivers ⟨2, by decide, by decide⟩ .info actions evs s := by
  obtain ⟨evs, s, hrun, hend⟩ := Runs.exists_exec_of_any
    (step ⟨2, by decide, by decide⟩) (start ⟨2, by decide, by decide⟩ .info)
    [.log .warn "thin book".toList 7, .caller, .caller, .log .error "late".toList 8, .caller,
      .caller, .log .debug "noise".toList 9, .flush, .worker, .worker, .caller, .stop, .worker,
      .worker, .caller, .worker, .worker]
    (fun evs s => s.worker = .done ∧ s.logger.dropped = 1 ∧ .flushed ∈ evs ∧
      acceptedAfterStop evs = [] ∧
      s.logger.out = "[             7ns] [WARN ] thin book\n".toList) (by decide)
  exact ⟨_, evs, s, hend, logger_delivers _ .info _ evs s hrun⟩

/-! ## Section 5: The worker gets there -/

section progress

variable {capacity : Capacity} {minLevel : LogLevel} {actions : List Action} {evs : List Event}
  {s : State} {q : List LogRecord}

/-- How far the worker is from its next pop. -/
def Worker.distance : Worker → Nat
  | .pop _ => 0
  | .test => 1
  | .count _ => 2
  | .write _ _ => 3
  | .done => 0

/-- A worker that is not at an empty queue comes closer to it. -/
theorem Moves.closer {v v' : View} {ev : Event} (h : Moves v .worker ev v')
    (hne : ∀ draining, v.worker = .pop draining → v.queue ≠ []) :
    4 * v'.queue.length + v'.worker.distance < 4 * v.queue.length + v.worker.distance ∧
      v'.worker ≠ .done ∧ v'.caller = v.caller ∧ v'.stopRequested = v.stopRequested := by
  cases h with
  | tested hpc | wrote _ _ hpc => simp [hpc, Worker.distance]
  | counted draining hpc => cases draining <;> simp [hpc, Worker.distance]
  | popped draining record rest hpc hq =>
    simp [hpc, hq, Worker.distance]
    omega
  | slept hpc hq | exited hpc hq => exact absurd hq (hne _ hpc)

/-- Left alone, the worker empties the queue and comes to pop from it again. -/
theorem exec_drains (h : s.logger.queue.Rep capacity q) (hpc : s.worker ≠ .done) :
    ∃ n evs s', Runs.exec (step capacity) s (List.replicate n .worker) = some (evs, s') ∧
      s'.logger.queue.Rep capacity [] ∧ (∃ draining, s'.worker = .pop draining) ∧
      s'.caller = s.caller ∧ s'.stopRequested = s.stopRequested := by
  refine Runs.exec_reaches (P := fun n s' => ∃ q, s'.logger.queue.Rep capacity q ∧
      n = 4 * q.length + s'.worker.distance ∧ s'.worker ≠ .done ∧ s'.caller = s.caller ∧
      s'.stopRequested = s.stopRequested) ?_ _ s ⟨q, h, rfl, hpc, rfl, rfl⟩
  rintro n s₁ ⟨q, h, rfl, hpc, hcaller, hstop⟩
  by_cases hne : ∀ draining, s₁.worker = .pop draining → q ≠ []
  · obtain ⟨ev, s₂, q', hs, hrep, hmoves⟩ := workerStep_moves h hpc
    obtain ⟨hlt, hpc', hcaller', hstop'⟩ := hmoves.closer hne
    exact Or.inr ⟨ev, s₂, _, hs, hlt, q', hrep, rfl, hpc', hcaller'.trans hcaller,
      hstop'.trans hstop⟩
  · push Not at hne
    obtain ⟨draining, hpop, rfl⟩ := hne
    exact Or.inl ⟨h, ⟨draining, hpop⟩, hcaller, hstop⟩

/-- A flush returns once the worker has had its turns. -/
theorem flush_returns {target : Nat}
    (hrun : Runs.exec (step capacity) (start capacity minLevel) actions = some (evs, s))
    (hcaller : s.caller = .wait target) (hworker : s.worker ≠ .done) :
    ∃ n evs' s', Runs.exec (step capacity) s (List.replicate n .worker ++ [.caller]) =
      some (evs' ++ [.flushed], s') := by
  obtain ⟨q, hrep, -⟩ := exec_history hrun
  obtain ⟨n, evs', s', hdrain, hempty, ⟨draining, hpop⟩, hsame, -⟩ := exec_drains hrep hworker
  obtain ⟨q', hrep', hist⟩ := exec_history (Runs.exec_append hrun hdrain)
  obtain rfl : q' = [] := hrep'.empty_eq.mp (hempty.empty_eq.mpr rfl)
  -- everything accepted is written and counted
  have htarget := hist.flushes.waiting target (hsame.trans hcaller)
  have hrecords := hist.conserved.records
  have hprocessed := hist.counted.processed
  simp only [State.view, hpop, Worker.inHand, Worker.uncounted, List.append_nil]
    at hrecords hprocessed
  have hdone : ¬ s'.logger.processedCount < target := by
    rw [htarget, hrecords]
    omega
  refine ⟨n, evs', { s' with caller := .idle }, Runs.exec_append hdrain ?_⟩
  simp [Runs.exec, step, callerStep, hsame, hcaller, hdone]

/-- The worker exits once it has had its turns after the stop request. -/
theorem worker_exits
    (hrun : Runs.exec (step capacity) (start capacity minLevel) actions = some (evs, s))
    (hstop : s.stopRequested = true) :
    ∃ n evs' s', Runs.exec (step capacity) s (List.replicate n .worker) = some (evs', s') ∧
      s'.worker = .done := by
  by_cases hworker : s.worker = .done
  · exact ⟨0, [], s, rfl, hworker⟩
  obtain ⟨q, hrep, -⟩ := exec_history hrun
  obtain ⟨n, evs', s', hdrain, hempty, ⟨draining, hpop⟩, -, hsame⟩ := exec_drains hrep hworker
  obtain ⟨-, hnone⟩ | ⟨record, rest, ring, hcons, -⟩ := hempty.tryPop
  · -- a worker still in its first loop goes round once more
    obtain ⟨k, evs'', s'', hexit, hdone⟩ : ∃ k evs'' s'', Runs.exec (step capacity) s'
        (List.replicate k .worker) = some (evs'', s'') ∧ s''.worker = .done := by
      cases draining with
      | true =>
        refine ⟨1, [.exited], { s' with worker := .done }, ?_, rfl⟩
        simp [Runs.exec, step, workerStep, hpop, hnone]
      | false =>
        refine ⟨3, [.silent, .silent, .exited], { s' with worker := .done }, ?_, rfl⟩
        simp [Runs.exec, step, workerStep, hpop, hnone, hsame, hstop]
    refine ⟨n + k, evs' ++ evs'', s'', ?_, hdone⟩
    rw [← List.replicate_append_replicate]
    exact Runs.exec_append hdrain hexit
  · cases hcons

end progress

end Logging

end LightningLob
