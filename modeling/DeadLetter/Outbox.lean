import Mathlib.Data.List.Sort
import Mathlib.Logic.Function.Basic
import DeadLetter.Job

/-!
# The outbox and its dispatcher

A row of `outbox_events` (migration 003), the statements of `outboxService.ts`, and
`dispatchOutboxBatch` as a machine: a run claims a batch, then for each event in turn publishes it
and marks it, each call a step of its own, so that any number of runs interleave. What a call of
the database or of the broker comes to is part of the action: a statement is executed or not, and
its caller gets the reply or an error.
-/

namespace DeadLetter

structure OutboxEvent where
  id : Uuid
  jobId : Uuid
  createdAt : ℤ
  claimedAt : Option ℤ := none
  publishedAt : Option ℤ := none
  attempts : ℕ := 0
  lastError : Option String := none
  deriving DecidableEq, Repr

abbrev OutboxEvents := Table OutboxEvent.id

/-- `STALE_CLAIM_THRESHOLD_SECONDS`. -/
def staleClaimThresholdSeconds : ℤ := 30

def newOutboxEvent (now : ℤ) (id jobId : Uuid) : OutboxEvent := { id, jobId, createdAt := now }

def insertOutboxEvent (now : ℤ) (events : OutboxEvents) (id jobId : Uuid) :
    Option OutboxEvents :=
  events.insert (newOutboxEvent now id jobId)

/-- The subquery's condition: unpublished, and unclaimed or claimed too long ago. -/
def OutboxEvent.claimable (now : ℤ) (e : OutboxEvent) : Bool :=
  e.publishedAt.isNone && match e.claimedAt with
    | none => true
    | some t => t < now - seconds staleClaimThresholdSeconds

/-- What the database leaves open of a claim: the rows that another statement has locked, which
`SKIP LOCKED` skips, and the orders in which rows of one age are met and in which `RETURNING` gives
the rows. -/
structure Scan where
  locked : Uuid → Bool := fun _ => false
  met : Uuid → ℕ := fun _ => 0
  returned : Uuid → ℕ := fun _ => 0

/-- The ids the subquery selects: the oldest `batchSize` of the claimable rows that no other
statement has locked. -/
def pendingIds (now : ℤ) (events : OutboxEvents) (batchSize : ℕ) (scan : Scan) : List Uuid :=
  let rows := events.rows.filter fun e => e.claimable now && !scan.locked e.id
  let met := rows.insertionSort fun a b => scan.met a.id ≤ scan.met b.id
  ((met.insertionSort fun a b => a.createdAt ≤ b.createdAt).take batchSize).map (·.id)

def claimPendingOutboxEvents (now : ℤ) (events : OutboxEvents) (batchSize : ℕ) (scan : Scan) :
    OutboxEvents × List OutboxEvent :=
  let ids := pendingIds now events batchSize scan
  let set := fun e : OutboxEvent => { e with claimedAt := some now }
  (events.update (fun e => decide (e.id ∈ ids)) set,
    (events.returning (fun e => decide (e.id ∈ ids)) set).insertionSort
      fun a b => scan.returned a.id ≤ scan.returned b.id)

def markOutboxPublished (now : ℤ) (events : OutboxEvents) (id : Uuid) : OutboxEvents :=
  events.updateKey id (fun _ => true) fun e => { e with publishedAt := some now }

def markOutboxFailed (events : OutboxEvents) (id : Uuid) (errorMessage : String) : OutboxEvents :=
  events.updateKey id (fun _ => true) fun e =>
    { e with claimedAt := none, attempts := e.attempts + 1, lastError := some errorMessage }

/-! ## The message of a failure -/

structure JsError where
  name : String
  message : String
  text : String
  deriving DecidableEq, Repr

/-- `err.message || err.name || String(err)`. -/
def JsError.describe (e : JsError) : String :=
  if e.message ≠ "" then e.message else if e.name ≠ "" then e.name else e.text

inductive Nested
  | error (e : JsError)
  | value (text : String)
  deriving DecidableEq, Repr

def Nested.message : Nested → String
  | .error e => e.message
  | .value text => text

inductive Thrown
  | aggregateError (e : JsError) (errors : List Nested)
  | error (e : JsError)
  | value (text : String)
  deriving DecidableEq, Repr

def Thrown.message : Thrown → String
  | .aggregateError e errors =>
    if errors.length > 0 then "; ".intercalate (errors.map Nested.message) else e.describe
  | .error e => e.describe
  | .value text => text

/-! ## The dispatcher -/

/-- `BATCH_SIZE`. -/
def batchSize : ℕ := 10

/-- What a statement comes to: it ran and its caller got the reply, or it did not run and its
caller got an error, or it ran and its caller got an error all the same. -/
inductive Reply
  | ok | failed | lost
  deriving DecidableEq, Repr

def Reply.executed : Reply → Bool
  | .failed => false
  | _ => true

/-- What `publishJobCreated` comes to: it returns, or it throws, the message being enqueued all
the same or not. -/
inductive PublishReply
  | ok
  | threw (err : Thrown) (enqueued : Bool)
  deriving DecidableEq, Repr

def PublishReply.enqueued : PublishReply → Bool
  | .ok => true
  | .threw _ b => b

/-- Where in the loop's body a run is: about to publish its event, to mark it published, or to
mark it failed. -/
inductive DispatchPhase
  | publish
  | markPublished
  | markFailed (message : String)
  deriving DecidableEq, Repr

/-- A run of `dispatchOutboxBatch` after its claim: the event at hand, those left, and its
counters. -/
structure DispatchRun where
  phase : DispatchPhase
  event : OutboxEvent
  rest : List OutboxEvent
  attempted : ℕ
  published : ℕ := 0
  failed : ℕ := 0
  deriving DecidableEq, Repr

/-- The loop starts on the claimed events; a run of none has returned. -/
def DispatchRun.start : List OutboxEvent → Option DispatchRun
  | [] => none
  | e :: es => some { phase := .publish, event := e, rest := es, attempted := es.length + 1 }

def DispatchRun.next (run : DispatchRun) : Option DispatchRun :=
  match run.rest with
  | [] => none
  | e :: es => some { run with phase := .publish, event := e, rest := es }

structure Outbox where
  events : OutboxEvents
  runs : ℕ → Option DispatchRun

/-- An event of job `k` is unpublished, and no run has published it and not yet marked it. -/
def Outbox.Due (s : Outbox) (k : Uuid) : Prop :=
  ∃ e ∈ s.events, e.jobId = k ∧ e.publishedAt = none
    ∧ ∀ r run, s.runs r = some run → run.phase = .markPublished → run.event.id ≠ e.id

/-- A step of a run, or of the process it is in. An error is the one thrown, where one is. -/
inductive OutboxAction
  | claim (scan : Scan) (reply : Reply)
  | publish (reply : PublishReply)
  | markPublished (reply : Reply) (err : Thrown)
  | markFailed (reply : Reply)
  | crash

def Outbox.setRun (s : Outbox) (r : ℕ) (run : Option DispatchRun) : Outbox :=
  { s with runs := Function.update s.runs r run }

def Outbox.step (now : ℤ) (s : Outbox) (r : ℕ) : OutboxAction → Option Outbox
  | .claim scan reply =>
    match s.runs r with
    | some _ => none
    | none =>
      let (events, claimed) := claimPendingOutboxEvents now s.events batchSize scan
      match reply with
      | .ok => some (Outbox.setRun { s with events } r (DispatchRun.start claimed))
      | .failed => some s
      | .lost => some { s with events }
  | .publish reply =>
    match s.runs r with
    | some run =>
      if run.phase = .publish then
        match reply with
        | .ok => some (s.setRun r (some { run with phase := .markPublished }))
        | .threw err _ => some (s.setRun r (some { run with phase := .markFailed err.message }))
      else none
    | none => none
  | .markPublished reply err =>
    match s.runs r with
    | some run =>
      if run.phase = .markPublished then
        let events := if reply.executed then markOutboxPublished now s.events run.event.id
          else s.events
        match reply with
        | .ok => some (Outbox.setRun { s with events } r
            { run with published := run.published + 1 }.next)
        | _ => some (Outbox.setRun { s with events } r
            (some { run with phase := .markFailed err.message }))
      else none
    | none => none
  | .markFailed reply =>
    match s.runs r with
    | some run =>
      match run.phase with
      | .markFailed message =>
        let events := if reply.executed then markOutboxFailed s.events run.event.id message
          else s.events
        match reply with
        | .ok => some (Outbox.setRun { s with events } r
            { run with failed := run.failed + 1 }.next)
        -- thrown inside the `catch`: the batch is rejected, and its other events are left
        | _ => some (Outbox.setRun { s with events } r none)
      | _ => none
    | none => none
  | .crash => some (s.setRun r none)

end DeadLetter
