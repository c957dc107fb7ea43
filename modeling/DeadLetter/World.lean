import DeadLetter.Consumer
import DeadLetter.Db

/-!
# The whole system

The database, the broker's queues and any number of workers. The API's transactions are the
commits of `Db`; the clock of the database is set at will, and that of the timers runs forward. A
message in the main queue may be delivered at any time, in any order. A message of the retry queue
expires when it has come to its head.

A worker's channel is open as long as the worker lives. The loss of a live worker's channel, by
which its message is redelivered while the handler goes on and a second consumer may be started
beside it, is no step here; nor is a statement of a dead worker that the database runs after its
death.
-/

namespace DeadLetter

structure World where
  now : ℤ
  time : ℕ
  db : Db
  main : List JobCreatedMessage
  retry : List (JobCreatedMessage × ℕ)
  dlq : List JobCreatedMessage
  workers : ℕ → Worker

inductive WorldAction
  | pass (elapsedMs : ℕ) (now : ℤ)
  | commit (c : Call) (eventId : Uuid)
  | dispatch (r : ℕ) (a : OutboxAction)
  | expire
  | deliver (w : ℕ) (msg : JobCreatedMessage)
  | work (w : ℕ) (a : HandlerAction)
  | crash (w : ℕ)

namespace World

def init : World where
  now := 0
  time := 0
  db := Db.init
  main := []
  retry := []
  dlq := []
  workers := fun _ => {}

def enqueued (s : World) (r : ℕ) : OutboxAction → List JobCreatedMessage
  | .publish reply =>
    if reply.enqueued then ((s.db.outbox.runs r).map fun run => ⟨run.event.jobId⟩).toList else []
  | _ => []

def handled (s : World) (w : ℕ) (h : Handled) : World :=
  { s with
    main := s.main ++ h.main
    retry := s.retry ++ h.retry
    dlq := s.dlq ++ h.dlq
    workers := Function.update s.workers w h.worker }

def afterCall (db : Db) : Option Call → Db
  | some c => { db with jobs := (c.run db.jobs).1 }
  | none => db

def step (s : World) : WorldAction → Option World
  | .pass elapsedMs now => some { s with now, time := s.time + elapsedMs }
  | .commit c eventId => (s.db.step (.commit c eventId)).map fun db => { s with db }
  | .dispatch r a => (s.db.step (.dispatch s.now r a)).map fun db =>
    { s with db, main := s.main ++ s.enqueued r a }
  | .expire =>
    match s.retry with
    | (msg, expiresAt) :: retry =>
      if expiresAt ≤ s.time then some { s with retry, main := s.main ++ [msg] } else none
    | [] => none
  | .deliver w msg =>
    if msg ∈ s.main ∧ (s.workers w).handler = none then
      some { s with
        main := s.main.erase msg
        workers := Function.update s.workers w ((s.workers w).go msg .claimJob) }
    else none
  | .work w a =>
    ((s.workers w).step s.now s.time s.db.jobs a).map fun h =>
      World.handled { s with db := afterCall s.db ((s.workers w).call s.now a) } w h
  | .crash w => some (s.handled w (s.workers w).crash)

/-! ## What wakes a job -/

/-- An unpublished event of job `k`, or a message for it in a queue or not yet acknowledged. -/
def Backed (s : World) (k : Uuid) : Prop :=
  (∃ e ∈ s.db.outbox.events, e.jobId = k ∧ e.publishedAt = none)
    ∨ ⟨k⟩ ∈ s.main ∨ (∃ t, (⟨k⟩, t) ∈ s.retry)
    ∨ ∃ w h, (s.workers w).handler = some h ∧ h.msg = ⟨k⟩

def WakesWaiting (s : World) : Prop :=
  ∀ j ∈ s.db.jobs, j.status = .queued ∨ j.status = .retrying → s.Backed j.id

/-- A job in `PROCESSING` that no worker works on has what wakes it. -/
def NoneOrphaned (s : World) : Prop :=
  ∀ j ∈ s.db.jobs, j.status = .processing →
    (∃ w job, (s.workers w).active = some job ∧ job.id = j.id) ∨ s.Backed j.id

/-- Something will see to job `k`: an event due, a message in a queue, or a worker among `p` that
keeps its message. -/
def Held (s : World) (p : ℕ → Prop) (k : Uuid) : Prop :=
  s.db.outbox.Due k ∨ ⟨k⟩ ∈ s.main ∨ (∃ t, (⟨k⟩, t) ∈ s.retry)
    ∨ ∃ w h, p w ∧ (s.workers w).handler = some h ∧ h.msg = ⟨k⟩ ∧ h.phase.keeps = true

/-- A claim that returns `null` for a job in `PROCESSING` leaves it held by something else. -/
def Attended (s : World) (a : WorldAction) (_ : World) : Prop :=
  match a with
  | .work w (.claimJob .ok) => ∀ msg j, (s.workers w).handler = some ⟨msg, .claimJob⟩ →
      s.db.jobs.get msg.jobId = some j → j.status = .processing → j.claimable s.now = false →
      s.Held (· ≠ w) msg.jobId
  | _ => True

/-- The same of the claims of job `k` only. -/
def AttendedFor (k : Uuid) (s : World) (a : WorldAction) (_ : World) : Prop :=
  match a with
  | .work w (.claimJob .ok) => ∀ j, (s.workers w).handler = some ⟨⟨k⟩, .claimJob⟩ →
      s.db.jobs.get k = some j → j.status = .processing → j.claimable s.now = false →
      s.Held (· ≠ w) k
  | _ => True

/-! ## What a run shows -/

/-- A call on the jobs table: whose it was, if a worker's, whether it changed a row, and whether
its caller got the reply. -/
structure Entry where
  worker : Option ℕ
  call : Call
  wrote : Bool
  replied : Bool
  deriving DecidableEq, Repr

def shown (s : World) (a : WorldAction) (_ : World) : List Entry :=
  match a with
  | .commit c _ => [{ worker := none, call := c, wrote := c.succeeds s.db.jobs, replied := true }]
  | .work w a => ((s.workers w).call s.now a).toList.map fun c =>
    { worker := some w, call := c, wrote := c.succeeds s.db.jobs, replied := a.replied }
  | _ => []

def latestClaim (l : List Entry) (k : Uuid) : Option Entry :=
  (l.filter fun e => e.call.id = k && e.wrote
    && (e.call.op = .claimJob || e.call.op = .claimReplay)).getLast?

def claimOf (l : List Entry) (w : ℕ) : Option Entry :=
  (l.filter fun e => e.worker = some w && e.call.op = .claimJob).getLast?

/-- Worker `w`, if it is between a claim and the end of its outcome write, is so for no longer than
the threshold. -/
def OnTime (s : World) (w : ℕ) : Prop :=
  ∀ job ∈ (s.workers w).active, s.now ≤ job.updatedAt + seconds staleProcessingThresholdSeconds

instance (s : World) (w : ℕ) : Decidable (s.OnTime w) :=
  inferInstanceAs (Decidable (∀ job ∈ (s.workers w).active, _))

def recorder : WorldAction → Option ℕ
  | .work w (.record _) => some w
  | _ => none

/-- The database's clock does not go back, and an outcome write on job `k` is on time. -/
def Prompt (k : Uuid) (s : World) (a : WorldAction) (t : World) : Prop :=
  s.now ≤ t.now ∧ ∀ w ∈ recorder a, ∀ job ∈ (s.workers w).active, job.id = k →
    s.now ≤ job.updatedAt + seconds staleProcessingThresholdSeconds

instance (k : Uuid) (s : World) (a : WorldAction) (t : World) : Decidable (Prompt k s a t) :=
  inferInstanceAs (Decidable (_ ∧ ∀ w ∈ recorder a, ∀ job ∈ (s.workers w).active, _))

def AllOnTime (s : World) (_ : WorldAction) (t : World) : Prop :=
  s.now ≤ t.now ∧ ∀ w, s.OnTime w

/-! ## Attempts -/

/-- The runs of `processJob` for job `k` in its cycle: a claim starts one when it returns. -/
def processRuns (l : List Entry) (k : Uuid) : ℕ :=
  l.foldl (fun n e =>
    if e.call.id = k ∧ e.wrote = true then
      if e.call.op = .claimReplay then 0
      else if e.call.op = .claimJob ∧ e.replied = true then n + 1 else n
    else n) 0

/-- The row that a worker claimed, where its step dead-letters the job as exhausted. -/
def exhausted (s : World) : WorldAction → Option Job
  | .work w (.record _) => match (s.workers w).handler with
    | some ⟨_, .record job (.deadLettered _ false)⟩ => some job
    | _ => none
  | _ => none

/-- No job is over its attempts, nor over as many runs of `processJob` in a cycle. -/
def WithinBudget (l : List Entry) (s : World) : Prop :=
  ∀ j ∈ s.db.jobs, j.attemptCount ≤ j.maxAttempts ∧ processRuns l j.id ≤ j.maxAttempts

/-- A job that is dead-lettered as exhausted has had all its attempts, and one that is replayed
has had none. -/
def FullBudget (s : World) (a : WorldAction) (t : World) : Prop :=
  ∀ e ∈ s.shown a t, e.wrote = true → ∀ row ∈ t.db.jobs.get e.call.id,
    ((s.exhausted a).isSome → row.attemptCount = row.maxAttempts)
      ∧ (e.call.op = .claimReplay → row.attemptCount = 0)

/-- A claim finds an attempt left, and a worker that dead-letters a job as exhausted finds the
attempts as it claimed them. -/
def Spares (s : World) (a : WorldAction) (t : World) : Prop :=
  ∀ e ∈ s.shown a t, e.wrote = true → ∀ row ∈ s.db.jobs.get e.call.id,
    (e.call.op = .claimJob → row.attemptCount < row.maxAttempts)
      ∧ ∀ job ∈ s.exhausted a, row.attemptCount = job.attemptCount

/-! ## Dead letters -/

def marksDeadLettered (k : Uuid) (e : Entry) : Bool :=
  e.call.id = k && e.wrote && e.call.deadLettering.isSome

/-- The transitions of job `k` to `DEAD_LETTERED`. -/
def deadLetterings (l : List Entry) (k : Uuid) : ℕ := l.countP (marksDeadLettered k)

/-- No handler for job `k` runs, and no message for it waits. -/
structure Quiet (s : World) (k : Uuid) : Prop where
  main : ⟨k⟩ ∉ s.main
  retry : ∀ t, (⟨k⟩, t) ∉ s.retry
  handler : ∀ w h, (s.workers w).handler = some h → h.msg ≠ ⟨k⟩

def publishesDeadLetter (s : World) (k : Uuid) (w : ℕ) : Bool :=
  (s.workers w).handler = some ⟨⟨k⟩, .publishDeadLetter⟩

/-- A step after which no worker is to publish the dead letter of a job in `DEAD_LETTERED`: the
reply of the mark is lost, or the publish throws with nothing enqueued, or the worker dies. -/
def losesDeadLetter (s : World) (k : Uuid) (a : WorldAction) (t : World) : Bool :=
  match a with
  | .work _ (.record _) => (s.shown a t).any fun e => marksDeadLettered k e && !e.replied
  | .work w (.publish ok enqueued) => s.publishesDeadLetter k w && !ok && !enqueued
  | .crash w => s.publishesDeadLetter k w
  | _ => false

/-- No dead letter of job `k` is lost. -/
def Published (k : Uuid) (s : World) (a : WorldAction) (t : World) : Prop :=
  s.losesDeadLetter k a t = false

instance (k : Uuid) (s : World) (a : WorldAction) (t : World) : Decidable (Published k s a t) :=
  inferInstanceAs (Decidable (_ = false))

/-! ## Backoff -/

/-- What the claims and the failures of a run do to a job, and when by the clock of the timers: a
worker has moved it to `RETRYING` after an attempt, or has claimed it. -/
inductive RetryMove
  | retrying (k : Uuid) (attempt time : ℕ)
  | claimed (k : Uuid) (time : ℕ)
  deriving DecidableEq, Repr

def retryMoves (s : World) (a : WorldAction) (t : World) : List RetryMove :=
  (s.shown a t).filterMap fun e =>
    match e.wrote, e.call.op, e.worker.bind fun w => (s.workers w).active with
    | true, .claimJob, _ => some (.claimed e.call.id s.time)
    | true, .markRetrying _, some job => some (.retrying e.call.id job.attemptCount s.time)
    | _, _, _ => none

def nextClaim (k : Uuid) (l : List RetryMove) : Option ℕ :=
  l.findSome? fun
    | .claimed k' time => if k' = k then some time else none
    | .retrying _ _ _ => none

/-- A job that was moved to `RETRYING` is claimed next when the backoff of its attempt is over. -/
def BackoffKept (l : List RetryMove) : Prop :=
  ∀ l₁ k n time l₂, l = l₁ ++ .retrying k n time :: l₂ →
    ∀ next ∈ nextClaim k l₂, time + calculateBackoffMs n ≤ next

/-- No retry of job `k` is to come: none in the queue that is to expire, and none that a worker is
about to publish. -/
def RetryDue (s : World) (k : Uuid) : Prop :=
  (∀ x ∈ s.retry, x.1 = ⟨k⟩ → x.2 ≤ s.time) ∧ ∀ w, ∀ x ∈ (s.workers w).publishing, x.1 ≠ ⟨k⟩

/-- A job in `RETRYING` has its retry published, by the worker that made it so, and no claim comes
before it. -/
def Paced (s : World) (a : WorldAction) (t : World) : Prop :=
  match a with
  | .work _ (.record _) => ∀ m, ∀ e ∈ s.shown a t, e.call.op = .markRetrying m →
      e.wrote = true → e.replied = true
  | .work w (.publish ok enqueued) =>
      (s.workers w).publishing.isSome = true → ok = true ∨ enqueued = true
  | .crash w => (s.workers w).publishing = none
  | .work _ (.claimJob _) => ∀ e ∈ s.shown a t,
      (s.db.jobs.get e.call.id).map (·.status) = some .retrying → s.RetryDue e.call.id
  | _ => True

end World

end DeadLetter
