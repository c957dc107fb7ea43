import DeadLetter.Job
import DeadLetter.Transition

/-!
# Runs of calls on the jobs table

Both programs reach the table only by the calls below, each one statement. A call is rejected
where its statement writes no row. `history` is the successful calls of a run; what the row of a
job should hold is counted from them.
-/

namespace DeadLetter

open Transition

inductive JobOp
  | createJob (type : String) (payload : Payload)
  | claimJob
  | markCompleted
  | markRetrying (errorMessage : String)
  | markDeadLettered (errorMessage : String)
  | claimReplay
  deriving DecidableEq, Repr

structure Call where
  id : Uuid
  now : ℤ
  op : JobOp
  deriving DecidableEq, Repr

/-- A caller sees a mark's row, or that it threw. -/
def rowOf : Jobs × Except String Job → Jobs × Option Job
  | (jobs, result) => (jobs, result.toOption)

def Call.run (jobs : Jobs) (c : Call) : Jobs × Option Job :=
  match c.op with
  | .createJob type payload =>
    let job := newJob c.now c.id type payload
    match jobs.insert job with
    | some jobs' => (jobs', some job)
    | none => (jobs, none)
  | .claimJob => claimJob c.now jobs c.id
  | .markCompleted => rowOf (markCompleted c.now jobs c.id)
  | .markRetrying m => rowOf (markRetrying c.now jobs c.id m)
  | .markDeadLettered m => rowOf (markDeadLettered c.now jobs c.id m)
  | .claimReplay => (claimReplayUpdate c.now).run jobs c.id

def Call.succeeds (jobs : Jobs) (c : Call) : Bool := (c.run jobs).2.isSome

def callStep (jobs : Jobs) (c : Call) : Option Jobs := some (c.run jobs).1

def callShown (jobs : Jobs) (c : Call) (_ : Jobs) : List Call :=
  if c.succeeds jobs then [c] else []

/-- The successful calls of a run from the empty table. -/
def history (cs : List Call) : List Call := trace callStep callShown Table.empty cs

/-! ## What a history counts -/

def claims (h : List Call) : ℕ := h.countP (·.op = .claimJob)

def replays (h : List Call) : ℕ := h.countP (·.op = .claimReplay)

def Call.deadLettering (c : Call) : Option (ℤ × String) :=
  match c.op with
  | .markDeadLettered m => some (c.now, m)
  | _ => none

def deadLetterings (h : List Call) : List (ℤ × String) := h.filterMap Call.deadLettering

/-- The calls since the last replay, or since the creation. -/
def cycle (h : List Call) : List Call :=
  h.foldl (fun l c => if c.op = .claimReplay then [] else l ++ [c]) []

/-- A row holds what the successful calls on its job say. -/
structure Matches (h : List Call) (j : Job) : Prop where
  totalAttempts : j.totalAttemptCount = claims h
  attempts : j.attemptCount = claims (cycle h)
  replays : j.replayCount = replays h
  deadLetterings : (deadLetterings h).length
    = j.replayCount + if j.status = .deadLettered then 1 else 0
  spent : j.attemptCount + j.replayCount ≤ j.totalAttemptCount
  queued : j.status = .queued ↔ j.attemptCount = 0
  deadLetteredAt : j.lastDeadLetteredAt = (DeadLetter.deadLetterings h).getLast?.map Prod.fst
  deadLetterReason : j.lastDeadLetterReason = (DeadLetter.deadLetterings h).getLast?.map Prod.snd
  noError : j.status = .queued ∨ j.status = .completed → j.lastError = none
  error : j.status = .retrying ∨ j.status = .deadLettered → j.lastError ≠ none
  maxAttempts : j.maxAttempts = 5
  created : h.head?.map (fun c => (c.op, c.now)) = some (.createJob j.type j.payload, j.createdAt)
  updated : h.getLast?.map (·.now) = some j.updatedAt

end DeadLetter
