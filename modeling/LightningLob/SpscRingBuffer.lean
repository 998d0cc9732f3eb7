import LightningLob.Types
import LightningLob.Lib.CircularBuffer
import LightningLob.Lib.Runs

/-! # The lock-free queue (`lockfree_queue.hpp`)

    `SpscRingBuffer` twice over: its calls as functions on the buffer, and the
    same calls taken apart into their accesses to shared memory, so that one
    producer and one consumer can be interleaved in every way.  Each access is
    atomic and sequentially consistent.  Elements are plain values, so that a
    move is a copy. -/

namespace LightningLob

/-! ## Section 1: The buffer and its calls -/

/-- The template's `Capacity`, with its static assertions. -/
structure Capacity where
  size : Nat
  powerOfTwo : size &&& (size - 1) = 0
  two_le : 2 ≤ size

/-- `kMask`. -/
def Capacity.kMask (capacity : Capacity) : Nat := capacity.size - 1

structure SpscRingBuffer (T : Type) where
  writeIdx : Nat := 0
  readIdx : Nat := 0
  buffer : List T
  deriving DecidableEq, Repr

namespace SpscRingBuffer

variable {T : Type} (capacity : Capacity)

/-- The default constructor. -/
def create [Inhabited T] : SpscRingBuffer T :=
  { buffer := List.replicate capacity.size default }

/-- `buffer_[i] = item`, a fault if there is no such slot. -/
def put (ring : SpscRingBuffer T) (i : Nat) (item : T) : Run (SpscRingBuffer T) :=
  if i < ring.buffer.length then
    some { ring with buffer := ring.buffer.set i item }
  else
    none

/-- `try_push`. -/
def tryPush (ring : SpscRingBuffer T) (item : T) : Run (Bool × SpscRingBuffer T) :=
  let write := ring.writeIdx
  let next := (write + 1) &&& capacity.kMask
  if next = ring.readIdx then
    pure (false, ring)
  else do
    let ring ← ring.put write item
    pure (true, { ring with writeIdx := next })

/-- `try_pop`, in its form that returns an optional. -/
def tryPop (ring : SpscRingBuffer T) : Run (Option T × SpscRingBuffer T) :=
  let read := ring.readIdx
  if read = ring.writeIdx then
    pure (none, ring)
  else do
    let out ← ring.buffer[read]?
    pure (some out, { ring with readIdx := (read + 1) &&& capacity.kMask })

/-- `empty`. -/
def empty (ring : SpscRingBuffer T) : Bool := ring.readIdx = ring.writeIdx

end SpscRingBuffer

/-! ## Section 2: The calls, one access at a time -/

namespace Spsc

/-- Where the producer is in a `try_push`, with its locals. -/
inductive Producer (T : Type) where
  | idle
  /-- `write_idx_` is loaded. -/
  | loadedOwn (item : T) (write next : Nat)
  /-- `read_idx_` is loaded and leaves room. -/
  | checked (item : T) (write next : Nat)
  /-- The slot is written. -/
  | written (item : T) (next : Nat)
  deriving DecidableEq, Repr

/-- Where the consumer is in a `try_pop`, with its locals. -/
inductive Consumer (T : Type) where
  | idle
  /-- `read_idx_` is loaded. -/
  | loadedOwn (read : Nat)
  /-- `write_idx_` is loaded and leaves something to read. -/
  | checked (read : Nat)
  /-- The slot is read. -/
  | taken (out : T) (read : Nat)
  deriving DecidableEq, Repr

structure State (T : Type) where
  ring : SpscRingBuffer T
  producer : Producer T := .idle
  consumer : Consumer T := .idle
  deriving DecidableEq, Repr

/-- Who moves next: a call begins with the load of its own index, and goes on
    with its next access. -/
inductive Action (T : Type) where
  | push (item : T)
  | producer
  | pop
  | consumer
  deriving DecidableEq, Repr

/-- What a move shows: a call that returns, or nothing. -/
inductive Event (T : Type) where
  | silent
  | pushed (item : T)
  | full
  | popped (item : T)
  | empty
  deriving DecidableEq, Repr

variable {T : Type} (capacity : Capacity)

def start [Inhabited T] : State T := { ring := .create capacity }

/-- The producer's next access. -/
def producerStep (s : State T) : Run (Event T × State T) :=
  match s.producer with
  | .idle => none
  | .loadedOwn item write next =>
      if next = s.ring.readIdx then
        pure (.full, { s with producer := .idle })
      else
        pure (.silent, { s with producer := .checked item write next })
  | .checked item write next => do
      let ring ← s.ring.put write item
      pure (.silent, { s with ring := ring, producer := .written item next })
  | .written item next =>
      pure (.pushed item, { s with ring := { s.ring with writeIdx := next }, producer := .idle })

/-- The consumer's next access. -/
def consumerStep (s : State T) : Run (Event T × State T) :=
  match s.consumer with
  | .idle => none
  | .loadedOwn read =>
      if read = s.ring.writeIdx then
        pure (.empty, { s with consumer := .idle })
      else
        pure (.silent, { s with consumer := .checked read })
  | .checked read => do
      let out ← s.ring.buffer[read]?
      pure (.silent, { s with consumer := .taken out read })
  | .taken out read =>
      pure (.popped out,
        { s with ring := { s.ring with readIdx := (read + 1) &&& capacity.kMask },
                 consumer := .idle })

/-- One move.  A call begins only when the one before it has returned. -/
def step (s : State T) : Action T → Run (Event T × State T)
  | .push item =>
      match s.producer with
      | .idle =>
          let write := s.ring.writeIdx
          let next := (write + 1) &&& capacity.kMask
          pure (.silent, { s with producer := .loadedOwn item write next })
      | _ => none
  | .producer => producerStep s
  | .pop =>
      match s.consumer with
      | .idle => pure (.silent, { s with consumer := .loadedOwn s.ring.readIdx })
      | _ => none
  | .consumer => consumerStep capacity s

/-- A move is the first access of a call, or the next one of a call in
    progress. -/
theorem step_cases {capacity : Capacity} {s s' : State T} {a : Action T} {ev : Event T}
    (hs : step capacity s a = some (ev, s')) :
    (∃ item next, a = .push item ∧ ev = .silent ∧
      next = (s.ring.writeIdx + 1) &&& capacity.kMask ∧
      s' = { s with producer := .loadedOwn item s.ring.writeIdx next }) ∨
    (a = .producer ∧ s.producer ≠ .idle ∧ producerStep s = some (ev, s')) ∨
    (a = .pop ∧ ev = .silent ∧ s' = { s with consumer := .loadedOwn s.ring.readIdx }) ∨
    (a = .consumer ∧ s.consumer ≠ .idle ∧ consumerStep capacity s = some (ev, s')) := by
  cases a with
  | push item =>
    simp only [step] at hs
    split at hs
    · obtain ⟨rfl, rfl⟩ := Prod.mk.inj (Option.some.inj hs)
      exact Or.inl ⟨item, _, rfl, rfl, rfl, rfl⟩
    · cases hs
  | producer =>
    refine Or.inr (Or.inl ⟨rfl, ?_, hs⟩)
    intro hidle
    simp [step, producerStep, hidle] at hs
  | pop =>
    simp only [step] at hs
    split at hs
    · obtain ⟨rfl, rfl⟩ := Prod.mk.inj (Option.some.inj hs)
      exact Or.inr (Or.inr (Or.inl ⟨rfl, rfl, rfl⟩))
    · cases hs
  | consumer =>
    refine Or.inr (Or.inr (Or.inr ⟨rfl, ?_, hs⟩))
    intro hidle
    simp [step, consumerStep, hidle] at hs

/-! ## Section 3: An uninterrupted call -/

/-- The accesses of a `try_push`, one after the other, do what the call does. -/
theorem exec_tryPush {s : State T} (hidle : s.producer = .idle) {item : T} {accepted : Bool}
    {ring : SpscRingBuffer T} (h : s.ring.tryPush capacity item = some (accepted, ring)) :
    ∃ n evs, Runs.exec (step capacity) s (.push item :: List.replicate n .producer) =
      some (evs ++ [if accepted then .pushed item else .full], { s with ring := ring }) := by
  obtain ⟨r, p, c⟩ := s
  subst hidle
  unfold SpscRingBuffer.tryPush at h
  by_cases hfull : (r.writeIdx + 1) &&& capacity.kMask = r.readIdx
  · simp only [hfull, if_true, Option.pure_def, Option.some.injEq, Prod.mk.injEq] at h
    obtain ⟨rfl, rfl⟩ := h
    refine ⟨1, [.silent], ?_⟩
    simp [Runs.exec, step, producerStep, hfull]
  · simp only [hfull, if_false, Option.bind_eq_bind, Option.bind_eq_some_iff, Option.pure_def,
      Option.some.injEq, Prod.mk.injEq] at h
    obtain ⟨r', hput, rfl, rfl⟩ := h
    refine ⟨3, [.silent, .silent, .silent], ?_⟩
    simp [Runs.exec, step, producerStep, hfull, hput]

/-- The accesses of a `try_pop`, one after the other, do what the call does. -/
theorem exec_tryPop {s : State T} (hidle : s.consumer = .idle) {out : Option T}
    {ring : SpscRingBuffer T} (h : s.ring.tryPop capacity = some (out, ring)) :
    ∃ n evs, Runs.exec (step capacity) s (.pop :: List.replicate n .consumer) =
      some (evs ++ [out.elim .empty .popped], { s with ring := ring }) := by
  obtain ⟨r, p, c⟩ := s
  subst hidle
  unfold SpscRingBuffer.tryPop at h
  by_cases hempty : r.readIdx = r.writeIdx
  · simp only [hempty, if_true, Option.pure_def, Option.some.injEq, Prod.mk.injEq] at h
    obtain ⟨rfl, rfl⟩ := h
    refine ⟨1, [.silent], ?_⟩
    simp [Runs.exec, step, consumerStep, hempty]
  · simp only [hempty, if_false, Option.bind_eq_bind, Option.bind_eq_some_iff, Option.pure_def,
      Option.some.injEq, Prod.mk.injEq] at h
    obtain ⟨v, hv, rfl, rfl⟩ := h
    refine ⟨3, [.silent, .silent, .silent], ?_⟩
    simp [Runs.exec, step, consumerStep, hempty, hv]

end Spsc

end LightningLob
