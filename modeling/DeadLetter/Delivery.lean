import DeadLetter.Consumer
import DeadLetter.Json

/-!
# One delivery

The message handler of `consumer.ts` from the bytes of a delivery to the end of its promise. Every
call that it awaits may fail, and the channel that delivered the message may close at any await:
then `ack` and `nack` throw, into the `catch` around them where there is one, and out of the handler
where there is none. How long `backoffBeforeRequeue` sleeps is left to the worker's model.
-/

namespace DeadLetter

def jobIdKey : CodeUnits := ascii ['j', 'o', 'b', 'I', 'd']

/-- What `processJob` threw. Reading its message, or making a string of it, may throw too. -/
structure ThrownValue where
  message : Option String
  nonRetryable : Bool := false
  deriving DecidableEq, Repr

/-- What the handler awaits, or how its promise was settled. -/
inductive DeliveryPhase
  | claimJob
  | getJobById
  | processJob (job : Job)
  | record (outcome : Outcome)
  | publishRetry (delayMs : ℕ)
  | publishDeadLetter
  | backoff
  | resolved
  | rejected
  deriving DecidableEq, Repr

def DeliveryPhase.ended : DeliveryPhase → Bool
  | .resolved | .rejected => true
  | _ => false

/-- The handler: the `jobId` it took from the message, and whether the channel is open yet. -/
structure Delivery where
  jobId : Option Json
  phase : DeliveryPhase
  channelOpen : Bool := true

/-- What an await comes to, a claim that throws with the error's `code`; or the channel closes. -/
inductive DeliveryAction
  | claimJob (reply : Except (Option String) (Option Job))
  | getJobById
  | processJob (result : Except ThrownValue Unit)
  | record (ok : Bool)
  | publish (ok : Bool)
  | wake
  | channelCloses

inductive Destination
  | retry (delayMs : ℕ)
  | dlq
  deriving DecidableEq, Repr

/-- A write or a publish that was attempted, and whether it succeeded; or the message is settled. -/
inductive DeliveryEvent
  | wrote (op : JobOp) (ok : Bool)
  | published (destination : Destination) (ok : Bool)
  | acked
  | requeued
  deriving DecidableEq, Repr

/-- `processJob` threw what no message can be read of. -/
def DeliveryAction.unreadable : DeliveryAction → Bool
  | .processJob (.error ⟨none, _⟩) => true
  | _ => false

def DeliveryEvent.settles : DeliveryEvent → Bool
  | .acked | .requeued => true
  | _ => false

def isInvalidTextRepresentationError (code : Option String) : Bool := code = some "22P02"

namespace Delivery

def go (s : Delivery) (phase : DeliveryPhase) : Delivery := { s with phase }

/-- `channel.ack(msg)`, inside a `try` whose `catch` backs off and requeues, or outside any. -/
def ack (s : Delivery) (caught : Bool) : Delivery × List DeliveryEvent :=
  if s.channelOpen then (s.go .resolved, [.acked])
  else if caught then (s.go .backoff, [])
  else (s.go .rejected, [])

/-- `channel.nack(msg, false, true)`, which stands outside any `try`. -/
def nack (s : Delivery) : Delivery × List DeliveryEvent :=
  if s.channelOpen then (s.go .resolved, [.requeued]) else (s.go .rejected, [])

/-- What is done with an outcome that was recorded. -/
def recorded (s : Delivery) : Outcome → Delivery × List DeliveryEvent
  | .completed => s.ack true
  | .deadLettered _ _ => (s.go .publishDeadLetter, [])
  | .retrying _ delayMs => (s.go (.publishRetry delayMs), [])

def published (s : Delivery) (ok : Bool) : Delivery × List DeliveryEvent :=
  if ok then s.ack false else (s.go .backoff, [])

/-- The handler up to its first await. -/
def receive (body : List UInt8) : Delivery × List DeliveryEvent :=
  match Json.parse (utf8Decode body) with
  | none => ack { jobId := none, phase := .claimJob } false
  -- the destructuring of `null` throws
  | some .null => ({ jobId := none, phase := .rejected }, [])
  | some content => ({ jobId := content.get jobIdKey, phase := .claimJob }, [])

def handle (s : Delivery) (a : DeliveryAction) : Option (Delivery × List DeliveryEvent) :=
  match s.phase, a with
  | .resolved, _ | .rejected, _ => none
  | _, .channelCloses => if s.channelOpen then some ({ s with channelOpen := false }, []) else none
  | .claimJob, .claimJob (.ok (some job)) => some (s.go (.processJob job), [])
  | .claimJob, .claimJob (.ok none) => some (s.go .getJobById, [])
  | .claimJob, .claimJob (.error code) =>
    if isInvalidTextRepresentationError code then some (s.ack false)
    else some (s.go .backoff, [])
  | .getJobById, .getJobById => some (s.ack true)
  | .processJob _, .processJob (.ok ()) => some (s.go (.record .completed), [])
  | .processJob job, .processJob (.error thrown) =>
    match thrown.message with
    | some message =>
      some (s.go (.record (outcomeOf job (.error ⟨message, thrown.nonRetryable⟩))), [])
    | none => some (s.go .rejected, [])
  | .record outcome, .record ok =>
    let (t, es) := if ok then s.recorded outcome else (s.go .backoff, [])
    some (t, .wrote outcome.op ok :: es)
  | .publishRetry delayMs, .publish ok =>
    let (t, es) := s.published ok
    some (t, .published (.retry delayMs) ok :: es)
  | .publishDeadLetter, .publish ok =>
    let (t, es) := s.published ok
    some (t, .published .dlq ok :: es)
  | .backoff, .wake => some s.nack
  | _, _ => none

def step (s : Delivery) (a : DeliveryAction) : Option Delivery := (s.handle a).map (·.1)

def shown (s : Delivery) (a : DeliveryAction) (_ : Delivery) : List DeliveryEvent :=
  ((s.handle a).map (·.2)).getD []

end Delivery

/-! ## The contract -/

inductive Mark
  | completed | retrying | deadLettered
  deriving DecidableEq, Repr

def JobOp.mark : JobOp → Option Mark
  | .markCompleted => some .completed
  | .markRetrying _ => some .retrying
  | .markDeadLettered _ => some .deadLettered
  | _ => none

/-- The mark that a job is to get when it has been processed so. -/
def decision (job : Job) : Except ThrownValue Unit → Mark
  | .ok () => .completed
  | .error thrown =>
    if thrown.nonRetryable ∨ job.maxAttempts ≤ job.attemptCount then .deadLettered else .retrying

/-- Where a job is to be published that was marked so. -/
def destination (job : Job) : Mark → Option Destination
  | .completed => none
  | .deadLettered => some .dlq
  | .retrying => some (.retry (min (2000 * 2 ^ (job.attemptCount - 1)) 20000))

def settlement (ok : Bool) : DeliveryEvent := if ok then .acked else .requeued

/-- One write is attempted, the one decided on. A publish follows a successful one that has a
destination, and no other. The message is acked if all that was attempted succeeded, requeued
otherwise, and not settled again. -/
def Contract (job : Job) (result : Except ThrownValue Unit) (l : List DeliveryEvent) : Prop :=
  ∃ op, op.mark = some (decision job result) ∧
    match destination job (decision job result) with
    | some d => l = [.wrote op false, .requeued]
      ∨ ∃ ok, l = [.wrote op true, .published d ok, settlement ok]
    | none => ∃ ok, l = [.wrote op ok, settlement ok]

/-- The handler can tell what was thrown, if anything was. -/
def Readable : Except ThrownValue Unit → Prop
  | .ok () => True
  | .error thrown => thrown.message ≠ none

end DeadLetter
