import DeadLetter.Outbox
import DeadLetter.Transition

/-!
# One batch, call by call

`dispatchOutboxBatch` after its claim, as a function of the events claimed and of what each of an
event's three calls comes to if it is made. The third stands in the `catch` of the other two, and
nothing in the loop catches what it throws. `Outbox.step` takes the same calls one at a time.
-/

namespace DeadLetter

structure EventCalls where
  publish : PublishReply
  markPublished : Reply
  /-- What `markOutboxPublished` throws, where it does. -/
  markError : Thrown
  markFailed : Reply
  deriving DecidableEq, Repr

inductive BatchCall
  | publishJobCreated (jobId : Uuid)
  | markOutboxPublished (id : Uuid)
  | markOutboxFailed (id : Uuid) (message : String)
  deriving DecidableEq, Repr

structure BatchCounts where
  attempted : ℕ
  published : ℕ
  failed : ℕ
  deriving DecidableEq, Repr

namespace EventCalls

/-- What the `try` throws. -/
def thrown (calls : EventCalls) : Option Thrown :=
  match calls.publish, calls.markPublished with
  | .threw err _, _ => some err
  | .ok, .ok => none
  | .ok, _ => some calls.markError

/-- The calls of the `try`. -/
def tried (event : OutboxEvent) (calls : EventCalls) : List BatchCall :=
  .publishJobCreated event.jobId
    :: if calls.publish = .ok then [.markOutboxPublished event.id] else []

def succeeds (calls : EventCalls) : Bool := calls.publish = .ok ∧ calls.markPublished = .ok

end EventCalls

/-- The loop: the calls made, and the counts returned unless the batch is rejected. -/
def dispatchEvents (attempted : ℕ) :
    ℕ → ℕ → List (OutboxEvent × EventCalls) → List BatchCall × Option BatchCounts
  | published, failed, [] => ([], some { attempted, published, failed })
  | published, failed, (event, calls) :: rest =>
    match calls.thrown with
    | none =>
      let (made, result) := dispatchEvents attempted (published + 1) failed rest
      (calls.tried event ++ made, result)
    | some err =>
      let mark := BatchCall.markOutboxFailed event.id err.message
      if calls.markFailed = .ok then
        let (made, result) := dispatchEvents attempted published (failed + 1) rest
        (calls.tried event ++ mark :: made, result)
      else (calls.tried event ++ [mark], none)

def dispatchOutboxBatch (claimed : List (OutboxEvent × EventCalls)) :
    List BatchCall × Option BatchCounts :=
  dispatchEvents claimed.length 0 0 claimed

def publishes (made : List BatchCall) : List Uuid :=
  made.filterMap fun
    | .publishJobCreated jobId => some jobId
    | _ => none

/-- Each event has one publish attempt, in order, and the counts come to all of them. -/
def Contained (claimed : List (OutboxEvent × EventCalls)) : Prop :=
  publishes (dispatchOutboxBatch claimed).1 = claimed.map (·.1.jobId)
    ∧ ∃ counts, (dispatchOutboxBatch claimed).2 = some counts
      ∧ counts.attempted = claimed.length
      ∧ counts.attempted = counts.published + counts.failed
      ∧ counts.published = claimed.countP (·.2.succeeds)

/-! ## As steps of the outbox -/

def EventCalls.actions (calls : EventCalls) : List OutboxAction :=
  .publish calls.publish
    :: ((if calls.publish = .ok then [.markPublished calls.markPublished calls.markError] else [])
      ++ if calls.thrown = none then [] else [.markFailed calls.markFailed])

def batchActions : List (OutboxEvent × EventCalls) → List OutboxAction
  | [] => []
  | (_, calls) :: rest =>
    calls.actions
      ++ if calls.thrown ≠ none ∧ calls.markFailed ≠ .ok then [] else batchActions rest

/-- The call that a step of run `r` makes. -/
def Outbox.made (r : ℕ) (s : Outbox) (a : OutboxAction) (_ : Outbox) : List BatchCall :=
  match s.runs r, a with
  | some run, .publish _ => [.publishJobCreated run.event.jobId]
  | some run, .markPublished _ _ => [.markOutboxPublished run.event.id]
  | some run, .markFailed _ => match run.phase with
    | .markFailed message => [.markOutboxFailed run.event.id message]
    | _ => []
  | _, _ => []

end DeadLetter
