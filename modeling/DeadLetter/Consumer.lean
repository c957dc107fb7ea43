import Mathlib.Algebra.Group.Nat.Defs
import DeadLetter.Calls
import DeadLetter.Outbox

/-!
# The worker's message handler

The handler of `consumer.ts` as a machine: it claims the message's job, processes it, records the
outcome, publishes it where it is a failure, and acknowledges the message, or backs off and
requeues it. A phase is what the handler awaits. Every message carries the id of a job, as only
the dispatcher and `publishRetry` write them, so that its branches for a malformed payload and a
malformed id are never taken. A worker is one consumer, whose channel stays open: as `prefetch` is
1, it has one handler at most.
-/

namespace DeadLetter

structure JobCreatedMessage where
  jobId : Uuid
  deriving DecidableEq, Repr

/-! ## Processing and retrying -/

structure ProcessingError where
  message : String
  nonRetryable : Bool := false
  deriving DecidableEq, Repr

def processJob (job : Job) : Except ProcessingError Unit :=
  if job.payload.lookup "shouldFailPermanently" = some (.bool true) then
    .error { message := s!"Simulated non-retryable failure for job type \"{job.type}\""
             nonRetryable := true }
  else if job.payload.lookup "shouldFail" = some (.bool true) then
    .error { message := s!"Simulated failure for job type \"{job.type}\"" }
  else .ok ()

def calculateBackoffMs (attemptCount : ℕ) : ℕ := min (2000 * 2 ^ (attemptCount - 1)) 20000

/-- `1000 * 2 ** (consecutiveErrors - 1)`, capped. -/
def computeDbErrorBackoffMs (consecutiveErrors : ℕ) : ℕ :=
  min (1000 * 2 ^ consecutiveErrors / 2) 30000

inductive Outcome
  | completed
  | deadLettered (message : String) (nonRetryable : Bool)
  | retrying (message : String) (delayMs : ℕ)
  deriving DecidableEq, Repr

/-- The outcome of processing `job`, the row as the claim returned it. -/
def outcomeOf (job : Job) : Except ProcessingError Unit → Outcome
  | .ok () => .completed
  | .error e =>
    if e.nonRetryable then .deadLettered e.message true
    else if job.attemptCount ≥ job.maxAttempts then .deadLettered e.message false
    else .retrying e.message (calculateBackoffMs job.attemptCount)

def Outcome.op : Outcome → JobOp
  | .completed => .markCompleted
  | .deadLettered m _ => .markDeadLettered m
  | .retrying m _ => .markRetrying m

/-! ## The handler -/

inductive HandlerPhase
  | claimJob
  | getJobById
  | processJob (job : Job)
  | record (job : Job) (outcome : Outcome)
  | publishRetry (delayMs : ℕ)
  | publishDeadLetter
  | backoff (wakeAt : ℕ)
  | ack
  deriving DecidableEq, Repr

/-- A handler in this phase lets its message go only with the job's outcome recorded. -/
def HandlerPhase.keeps : HandlerPhase → Bool
  | .getJobById | .publishDeadLetter | .ack => false
  | _ => true

structure Handler where
  msg : JobCreatedMessage
  phase : HandlerPhase
  deriving DecidableEq, Repr

structure Worker where
  dbErrorCount : ℕ := 0
  handler : Option Handler := none
  deriving DecidableEq, Repr

/-- What the handler's await comes to. A publish that returns has enqueued its message; one that
throws may have. -/
inductive HandlerAction
  | claimJob (reply : Reply)
  | getJobById
  | processJob
  | record (reply : Reply)
  | publish (ok enqueued : Bool)
  | requeue
  | ack
  deriving DecidableEq, Repr

def HandlerAction.replied : HandlerAction → Bool
  | .claimJob reply | .record reply => reply = .ok
  | _ => true

/-- What a step of a worker makes of the worker, and the messages it hands the broker. -/
structure Handled where
  worker : Worker
  main : List JobCreatedMessage := []
  retry : List (JobCreatedMessage × ℕ) := []
  dlq : List JobCreatedMessage := []
  deriving DecidableEq, Repr

namespace Worker

def call (now : ℤ) (wk : Worker) (a : HandlerAction) : Option Call :=
  match wk.handler, a with
  | some ⟨msg, .claimJob⟩, .claimJob reply =>
    if reply.executed then some ⟨msg.jobId, now, .claimJob⟩ else none
  | some ⟨msg, .record _ outcome⟩, .record reply =>
    if reply.executed then some ⟨msg.jobId, now, outcome.op⟩ else none
  | _, _ => none

def go (wk : Worker) (msg : JobCreatedMessage) (phase : HandlerPhase) : Worker :=
  { wk with handler := some { msg, phase } }

/-- `backoffBeforeRequeue`, the worker's clock standing at `time`. -/
def backoffBeforeRequeue (time : ℕ) (wk : Worker) (msg : JobCreatedMessage) : Worker :=
  { dbErrorCount := wk.dbErrorCount + 1
    handler := some
      { msg, phase := .backoff (time + computeDbErrorBackoffMs (wk.dbErrorCount + 1)) } }

def afterRecord : Outcome → HandlerPhase
  | .completed => .ack
  | .deadLettered _ _ => .publishDeadLetter
  | .retrying _ delayMs => .publishRetry delayMs

def step (now : ℤ) (time : ℕ) (jobs : Jobs) (wk : Worker) (a : HandlerAction) : Option Handled :=
  match wk.handler with
  | none => none
  | some ⟨msg, phase⟩ =>
    match phase, a with
    | .claimJob, .claimJob .ok =>
      let wk := { wk with dbErrorCount := 0 }
      match (claimJob now jobs msg.jobId).2 with
      | some job => some { worker := wk.go msg (.processJob job) }
      | none => some { worker := wk.go msg .getJobById }
    | .claimJob, .claimJob _ => some { worker := wk.backoffBeforeRequeue time msg }
    | .getJobById, .getJobById => some { worker := wk.go msg .ack }
    | .processJob job, .processJob =>
      some { worker := wk.go msg (.record job (outcomeOf job (DeadLetter.processJob job))) }
    | .record _ outcome, .record .ok =>
      match (Call.run jobs ⟨msg.jobId, now, outcome.op⟩).2 with
      | some _ => some { worker := wk.go msg (afterRecord outcome) }
      -- the mark throws
      | none => some { worker := wk.backoffBeforeRequeue time msg }
    | .record _ _, .record _ => some { worker := wk.backoffBeforeRequeue time msg }
    | .publishRetry delayMs, .publish ok enqueued =>
      some { worker := if ok then wk.go msg .ack else wk.backoffBeforeRequeue time msg
             retry := if ok || enqueued then [(msg, time + delayMs)] else [] }
    | .publishDeadLetter, .publish ok enqueued =>
      some { worker := if ok then wk.go msg .ack else wk.backoffBeforeRequeue time msg
             dlq := if ok || enqueued then [msg] else [] }
    | .backoff wakeAt, .requeue =>
      if wakeAt ≤ time then some { worker := { wk with handler := none }, main := [msg] } else none
    | .ack, .ack => some { worker := { wk with handler := none } }
    | _, _ => none

/-- The job a worker is between claiming and having recorded, as the claim returned it. -/
def active (wk : Worker) : Option Job :=
  match wk.handler with
  | some ⟨_, .processJob job⟩ | some ⟨_, .record job _⟩ => some job
  | _ => none

/-- The retry a worker is about to publish, and its delay. -/
def publishing (wk : Worker) : Option (JobCreatedMessage × ℕ) :=
  match wk.handler with
  | some ⟨msg, .publishRetry delayMs⟩ => some (msg, delayMs)
  | _ => none

def crash (wk : Worker) : Handled :=
  { worker := {}, main := (wk.handler.map (·.msg)).toList }

end Worker

end DeadLetter
