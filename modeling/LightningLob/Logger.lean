import LightningLob.SpscRingBuffer

/-! # The asynchronous logger (`logger.hpp`, `logger.cpp`)

    `log` copies its message into a record of fixed size and pushes that on the
    lock-free queue; a worker thread pops the records and writes them out.
    Section 2 is the two threads at work: one that calls `log` and `flush` in
    any order, and the worker in its loop.  Each queue operation, each access
    to a counter or to the stop flag and each write to the stream is one step.

    The queue's capacity is 8192 in the source and a parameter here.  The
    counters are 64-bit in the source and count the records of one run, they
    are natural numbers here. -/

namespace LightningLob

/-! ## Section 1: Records and the logger's fields -/

inductive LogLevel where
  | debug
  | info
  | warn
  | error
  deriving DecidableEq, Repr

namespace LogLevel

/-- The underlying value, by which levels are compared. -/
def toNat : LogLevel → Nat
  | .debug => 0
  | .info => 1
  | .warn => 2
  | .error => 3

/-- `to_string`. -/
def toString : LogLevel → String
  | .debug => "DEBUG"
  | .info => "INFO"
  | .warn => "WARN"
  | .error => "ERROR"

end LogLevel

/-- The byte that ends a C string. -/
def nul : Char := Char.ofNat 0

/-- `sizeof(LogRecord::message)`. -/
def kMessageSize : Nat := 120

structure LogRecord where
  timestamp : Timestamp := 0
  level : LogLevel := .info
  /-- The whole array, padded with zero bytes. -/
  message : List Char := List.replicate kMessageSize nul
  deriving DecidableEq, Repr

instance : Inhabited LogRecord := ⟨{}⟩

namespace LogRecord

/-- The record `log` makes of its arguments: a message that does not fit is cut
    off, so that the last byte is always zero. -/
def ofMessage (now : Timestamp) (level : LogLevel) (message : List Char) : LogRecord where
  timestamp := now
  level := level
  message := (message.take (kMessageSize - 1)).rightpad kMessageSize nul

/-- The line `write_record` prints, `"[{:>14}ns] [{:<5}] {}\n"`.  The message is
    printed as a C string. -/
def line (record : LogRecord) : List Char :=
  "[".toList ++ (Nat.toDigits 10 record.timestamp).leftpad 14 ' ' ++ "ns] [".toList ++
    record.level.toString.toList.rightpad 5 ' ' ++ "] ".toList ++
    record.message.takeWhile (· ≠ nul) ++ ['\n']

end LogRecord

structure Logger where
  queue : SpscRingBuffer LogRecord
  /-- What was written to the stream so far. -/
  out : List Char := []
  minLevel : LogLevel := .info
  dropped : Nat := 0
  pushedCount : Nat := 0
  processedCount : Nat := 0
  deriving DecidableEq, Repr

/-! ## Section 2: The caller and the worker -/

namespace Logging

/-- Where the calling thread is in `log` or `flush`. -/
inductive Caller where
  | idle
  /-- In `log`, about to push the record. -/
  | push (record : LogRecord)
  /-- In `log`, the record is in the queue. -/
  | countPushed
  /-- In `log`, the queue was full. -/
  | countDropped
  /-- In the loop of `flush`. -/
  | wait (target : Nat)
  deriving DecidableEq, Repr

/-- Where the worker is in `worker_loop`: in the first loop, or `draining` in
    the second. -/
inductive Worker where
  /-- About to test `stop_requested`. -/
  | test
  | pop (draining : Bool)
  /-- In `write_record`. -/
  | write (draining : Bool) (record : LogRecord)
  /-- In `write_record`, the line is written. -/
  | count (draining : Bool)
  | done
  deriving DecidableEq, Repr

structure State where
  logger : Logger
  stopRequested : Bool := false
  caller : Caller := .idle
  worker : Worker := .test
  deriving DecidableEq, Repr

/-- Who moves next.  The caller begins a call or goes on with it, and the stop
    request may come from any thread. -/
inductive Action where
  | log (level : LogLevel) (message : List Char) (now : Timestamp)
  | flush
  | caller
  | worker
  | stop
  deriving DecidableEq, Repr

inductive Event where
  | silent
  /-- `log` returned at once, the level is too low. -/
  | filtered
  /-- `log` made its record. -/
  | called (record : LogRecord)
  | accepted (record : LogRecord)
  | refused (record : LogRecord)
  /-- `log` returned. -/
  | logged
  | flushBegan
  | flushed
  | wrote (record : LogRecord)
  | stopRequested
  | exited
  deriving DecidableEq, Repr

variable (capacity : Capacity)

/-- The constructor. -/
def start (minLevel : LogLevel) : State where
  logger := { queue := .create capacity, minLevel := minLevel }

/-- The next step of a call in progress. -/
def callerStep (s : State) : Run (Event × State) :=
  match s.caller with
  | .idle => none
  | .push record => do
      let (accepted, queue) ← s.logger.queue.tryPush capacity record
      if accepted then
        pure (.accepted record,
          { s with logger := { s.logger with queue := queue }, caller := .countPushed })
      else
        pure (.refused record,
          { s with logger := { s.logger with queue := queue }, caller := .countDropped })
  | .countPushed =>
      pure (.logged,
        { s with logger := { s.logger with pushedCount := s.logger.pushedCount + 1 },
                 caller := .idle })
  | .countDropped =>
      pure (.logged,
        { s with logger := { s.logger with dropped := s.logger.dropped + 1 }, caller := .idle })
  | .wait target =>
      if s.logger.processedCount < target then
        pure (.silent, s)
      else
        pure (.flushed, { s with caller := .idle })

/-- The worker's next step.  Its sleep touches nothing. -/
def workerStep (s : State) : Run (Event × State) :=
  match s.worker with
  | .test => pure (.silent, { s with worker := .pop s.stopRequested })
  | .pop draining => do
      let (record, queue) ← s.logger.queue.tryPop capacity
      match record with
      | some record =>
          pure (.silent,
            { s with logger := { s.logger with queue := queue }, worker := .write draining record })
      | none =>
          if draining then
            pure (.exited, { s with logger := { s.logger with queue := queue }, worker := .done })
          else
            pure (.silent, { s with logger := { s.logger with queue := queue }, worker := .test })
  | .write draining record =>
      pure (.wrote record,
        { s with logger := { s.logger with out := s.logger.out ++ record.line },
                 worker := .count draining })
  | .count draining =>
      pure (.silent,
        { s with logger := { s.logger with processedCount := s.logger.processedCount + 1 },
                 worker := if draining then .pop true else .test })
  | .done => none

/-- One step.  A call begins only when the one before it has returned, `flush`
    with its load of `pushed_count_`, and a stop is requested once. -/
def step (s : State) : Action → Run (Event × State)
  | .log level message now =>
      match s.caller with
      | .idle =>
          if level.toNat < s.logger.minLevel.toNat then
            pure (.filtered, s)
          else
            let record := LogRecord.ofMessage now level message
            pure (.called record, { s with caller := .push record })
      | _ => none
  | .flush =>
      match s.caller with
      | .idle => pure (.flushBegan, { s with caller := .wait s.logger.pushedCount })
      | _ => none
  | .caller => callerStep capacity s
  | .worker => workerStep capacity s
  | .stop =>
      if s.stopRequested then
        none
      else
        pure (.stopRequested, { s with stopRequested := true })

end Logging

end LightningLob
