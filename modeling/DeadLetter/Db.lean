import DeadLetter.Calls
import DeadLetter.Outbox

/-!
# The database, commit by commit

What the two programs do to the tables, each commit being one step: a `createJob` or a
`claimReplay`, which change a job and add its event, a worker's statement, or a step of a
dispatcher run.
-/

namespace DeadLetter

structure Db where
  jobs : Jobs
  outbox : Outbox

/-- The API's calls, which run in a transaction. The others are the worker's. -/
def JobOp.isApi : JobOp → Bool
  | .createJob _ _ | .claimReplay => true
  | _ => false

inductive DbAction
  | commit (c : Call) (eventId : Uuid)
  | call (c : Call)
  | dispatch (now : ℤ) (r : ℕ) (a : OutboxAction)

namespace Db

def init : Db := { jobs := Table.empty, outbox := { events := Table.empty, runs := fun _ => none } }

/-- A `createJob` or `claimReplay` that changes its job adds an event for it. -/
def commit (s : Db) (c : Call) (eventId : Uuid) : Option Db :=
  match c.run s.jobs with
  | (_, none) => none
  | (jobs, some job) => (insertOutboxEvent c.now s.outbox.events eventId job.id).map fun events =>
    { jobs, outbox := { s.outbox with events } }

def step (s : Db) : DbAction → Option Db
  | .commit c eventId => if c.op.isApi then s.commit c eventId else none
  | .call c => if c.op.isApi then none else some { s with jobs := (c.run s.jobs).1 }
  | .dispatch now r a => (s.outbox.step now r a).map fun outbox => { s with outbox }

def calls : Db → DbAction → List Call
  | _, .commit c _ => [c]
  | _, .call c => [c]
  | _, .dispatch _ _ _ => []

end Db

end DeadLetter
