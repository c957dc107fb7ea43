import Mathlib.Data.Int.Notation
import Mathlib.Data.Nat.Notation
import DeadLetter.Table

/-!
# The jobs table

A row of `jobs` (migrations 001 and 002) and the statements the two `jobService.ts` files run on
it: the worker's `claimJob`, `markCompleted`, `markRetrying` and `markDeadLettered`, and the
`INSERT` and `UPDATE` that the API's `createJob` and `claimReplay` run inside a transaction. Each
is one conditional `UPDATE … RETURNING *`; its `now()` is the argument `now`. A `TIMESTAMPTZ` is
an integer number of microseconds.
-/

namespace DeadLetter

def seconds (n : ℤ) : ℤ := n * 1000000

/-- A UUID, of which only the identity matters. -/
abbrev Uuid := ℕ

inductive JobStatus
  | queued | processing | completed | failed | retrying | deadLettered
  deriving DecidableEq, Repr

/-- A value in a JSONB object: a boolean, or any other value's text. -/
inductive JsonValue
  | bool (b : Bool)
  | other (text : String)
  deriving DecidableEq, Repr

/-- `Record<string, unknown>`. -/
abbrev Payload := List (String × JsonValue)

structure Job where
  id : Uuid
  type : String
  payload : Payload
  status : JobStatus := .queued
  attemptCount : ℕ := 0
  maxAttempts : ℕ := 5
  lastError : Option String := none
  createdAt : ℤ
  updatedAt : ℤ
  totalAttemptCount : ℕ := 0
  replayCount : ℕ := 0
  lastDeadLetteredAt : Option ℤ := none
  lastDeadLetterReason : Option String := none
  deriving DecidableEq, Repr

abbrev Jobs := Table Job.id

/-- `UPDATE jobs SET set WHERE id = $1 AND cond RETURNING *`. -/
structure JobUpdate where
  cond : Job → Bool
  set : Job → Job
  set_id : ∀ j, (set j).id = j.id := by intro j; rfl

def JobUpdate.run (u : JobUpdate) (jobs : Jobs) (id : Uuid) : Jobs × Option Job :=
  (jobs.updateKey id u.cond u.set u.set_id, jobs.returningKey id u.cond u.set)

/-- `STALE_PROCESSING_THRESHOLD_SECONDS`. -/
def staleProcessingThresholdSeconds : ℤ := 60

/-- The claim's condition: waiting, or in `PROCESSING` for longer than the threshold. -/
def Job.claimable (now : ℤ) (j : Job) : Bool :=
  j.status = .queued || j.status = .retrying
    || (j.status = .processing && j.updatedAt < now - seconds staleProcessingThresholdSeconds)

def claimJobUpdate (now : ℤ) : JobUpdate where
  cond := Job.claimable now
  set j := { j with
    status := .processing
    attemptCount := j.attemptCount + 1
    totalAttemptCount := j.totalAttemptCount + 1
    updatedAt := now }

def markCompletedUpdate (now : ℤ) : JobUpdate where
  cond j := j.status = .processing
  set j := { j with status := .completed, lastError := none, updatedAt := now }

def markRetryingUpdate (now : ℤ) (errorMessage : String) : JobUpdate where
  cond j := j.status = .processing
  set j := { j with status := .retrying, lastError := some errorMessage, updatedAt := now }

def markDeadLetteredUpdate (now : ℤ) (errorMessage : String) : JobUpdate where
  cond j := j.status = .processing
  set j := { j with
    status := .deadLettered
    lastError := some errorMessage
    lastDeadLetteredAt := some now
    lastDeadLetterReason := some errorMessage
    updatedAt := now }

def claimReplayUpdate (now : ℤ) : JobUpdate where
  cond j := j.status = .deadLettered
  set j := { j with
    status := .queued
    attemptCount := 0
    replayCount := j.replayCount + 1
    lastError := none
    updatedAt := now }

/-- The row `INSERT INTO jobs (type, payload)` adds, `id` being what `gen_random_uuid()` gave. -/
def newJob (now : ℤ) (id : Uuid) (type : String) (payload : Payload) : Job :=
  { id, type, payload, createdAt := now, updatedAt := now }

def claimJob (now : ℤ) (jobs : Jobs) (id : Uuid) : Jobs × Option Job :=
  (claimJobUpdate now).run jobs id

/-- A mark throws where its statement returned no row. -/
def orThrow (fn : String) (id : Uuid) : Jobs × Option Job → Jobs × Except String Job
  | (jobs, some job) => (jobs, .ok job)
  | (jobs, none) => (jobs, .error s!"{fn}: job {id} not found or not in PROCESSING state")

def markCompleted (now : ℤ) (jobs : Jobs) (id : Uuid) : Jobs × Except String Job :=
  orThrow "markCompleted" id ((markCompletedUpdate now).run jobs id)

def markRetrying (now : ℤ) (jobs : Jobs) (id : Uuid) (errorMessage : String) :
    Jobs × Except String Job :=
  orThrow "markRetrying" id ((markRetryingUpdate now errorMessage).run jobs id)

def markDeadLettered (now : ℤ) (jobs : Jobs) (id : Uuid) (errorMessage : String) :
    Jobs × Except String Job :=
  orThrow "markDeadLettered" id ((markDeadLetteredUpdate now errorMessage).run jobs id)

namespace JobUpdate

variable (u : JobUpdate) (jobs : Jobs) (id : Uuid)

theorem get_run (k : Uuid) : (u.run jobs id).1.get k
    = if k = id then (jobs.get id).map fun j => if u.cond j then u.set j else j
      else jobs.get k :=
  Table.get_updateKey u.set_id k

theorem run_snd_eq_some {j : Job} : (u.run jobs id).2 = some j ↔
    ∃ i, jobs.get id = some i ∧ u.cond i = true ∧ u.set i = j :=
  Table.returningKey_eq_some

theorem run_of_none (h : (u.run jobs id).2 = none) : (u.run jobs id).1 = jobs :=
  Table.updateKey_of_returning_none u.set_id h

theorem run_snd_eq_none : (u.run jobs id).2 = none ↔
    ∀ j, jobs.get id = some j → u.cond j = false := by
  constructor
  · intro h j hj
    by_contra hc
    have := (u.run_snd_eq_some jobs id).2 ⟨j, hj, by simpa using hc, rfl⟩
    rw [h] at this
    exact absurd this (by simp)
  · intro h
    rcases hr : (u.run jobs id).2 with _ | j
    · rfl
    · obtain ⟨i, hi, hc, -⟩ := (u.run_snd_eq_some jobs id).1 hr
      rw [h i hi] at hc
      exact absurd hc (by simp)

end JobUpdate

end DeadLetter
