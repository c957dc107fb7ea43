import DeadLetter.RateLimiter
import DeadLetter.Transaction

/-!
# The API's mutating routes

`POST /api/jobs` and `POST /api/jobs/:id/replay` of `routes/jobs.ts`: the key, the rate limiter
they share, backpressure on the first, then the handler. A request's phase is what it awaits, and
what it does from one `await` to the next is one step: other requests run in between, and so do
the worker and the dispatcher. Request `i` makes call `i` of the server.
-/

namespace DeadLetter

/-! ## What a request says -/

/-- A field of a body as `createJobSchema` tells them apart; an absent one is `other`. -/
inductive BodyField
  | string (s : String)
  | object (fields : Payload)
  | other
  deriving DecidableEq, Repr

structure JobBody where
  type : BodyField
  payload : BodyField
  deriving DecidableEq, Repr

/-- `createJobSchema`, with what `z.record` makes of the fields of an object. The body is `none`
where it is not an object. -/
def createJobSchema (record : Payload → Payload) : Option JobBody → Option (String × Payload)
  | some { type := .string type, payload := .object payload } =>
    if type = "" then none else some (type, record payload)
  | _ => none

inductive JobsRoute
  | create (body : Option JobBody)
  | replay (id : String)
  deriving DecidableEq, Repr

structure HttpRequest where
  /-- Neither `express.json()` nor the decoding of the path threw. -/
  parses : Bool
  apiKey : Option String
  testClientId : Option String
  ip : Option String
  route : JobsRoute
  deriving DecidableEq, Repr

/-! ## What it is answered -/

inductive Response
  | created (jobId : Uuid) (status : JobStatus)
  | replayed (jobId : Uuid) (status : JobStatus) (replayCount : ℕ)
  | badRequest (error : String)
  | unauthorized
  | notFound
  | conflict (currentStatus : JobStatus)
  | tooManyRequests (retryAfterSeconds : ℤ)
  | internalServerError
  | unavailable (pendingOutboxEvents : ℕ)
  deriving DecidableEq, Repr

def Response.status : Response → ℕ
  | created _ _ => 201
  | replayed _ _ _ => 200
  | badRequest _ => 400
  | unauthorized => 401
  | notFound => 404
  | conflict _ => 409
  | tooManyRequests _ => 429
  | internalServerError => 500
  | unavailable _ => 503

/-- The `error` of the body, and its `reason` where it has one. -/
def Response.error : Response → Option (String × Option String)
  | created _ _ | replayed _ _ _ => none
  | badRequest error => some (error, none)
  | unauthorized => some ("Unauthorized", some "missing_or_invalid_api_key")
  | notFound => some ("Job not found", none)
  | conflict _ => some ("Job is not in a replayable state", none)
  | tooManyRequests _ => some ("Too many requests", some "rate_limited")
  | internalServerError => some ("Internal server error", none)
  | unavailable _ => some ("Service temporarily unable to accept new jobs", some "backpressure")

/-- The `Retry-After` header. -/
def Response.retryAfter : Response → Option ℤ
  | tooManyRequests retryAfterSeconds => some retryAfterSeconds
  | unavailable _ => some 5
  | _ => none

structure JobStats where
  totalJobs : ℕ
  byStatus : JobStatus → ℕ
  totalReplays : ℕ
  totalAttempts : ℕ
  pendingOutboxEvents : ℕ

def getStats (db : Db) : JobStats where
  totalJobs := db.jobs.rows.length
  byStatus status := db.jobs.rows.countP (·.status = status)
  totalReplays := (db.jobs.rows.map (·.replayCount)).sum
  totalAttempts := (db.jobs.rows.map (·.totalAttemptCount)).sum
  pendingOutboxEvents := db.outbox.events.rows.countP (·.publishedAt = none)

/-! ## The middleware and the handlers -/

/-- What a request awaits, or its response. -/
inductive RequestPhase
  | getStats
  /-- The snapshot `getStats` read is on its way back. -/
  | stats (pendingOutboxEvents : ℕ)
  | transaction (c : ApiCall)
  | returned (c : ApiCall) (result : ApiResult)
  | getJobById (id : Uuid)
  | responded (r : Response)
  deriving DecidableEq, Repr

def requireApiKey (apiKey provided : Option String) : Bool :=
  match apiKey, provided with
  | none, _ => true
  | some key, none => key = ""
  | some key, some provided => key = "" || (provided ≠ "" && provided = key)

/-- `env`, and of zod what `z.record` returns and the UUID a string denotes where `jobIdParamSchema`
accepts it. -/
structure ApiEnv where
  production : Bool
  apiKey : Option String
  backpressureThreshold : ℕ
  jobsRateLimiter : RateLimiter
  record : Payload → Payload
  jobIdParamSchema : String → Option Uuid

namespace ApiEnv

variable (env : ApiEnv)

def postJob (body : Option JobBody) : RequestPhase :=
  match createJobSchema env.record body with
  | none => .responded (.badRequest "Invalid request")
  | some (type, payload) => .transaction (.createJob type payload)

def backpressure (pendingOutboxEvents : ℕ) (next : RequestPhase) : RequestPhase :=
  if pendingOutboxEvents > env.backpressureThreshold then
    .responded (.unavailable pendingOutboxEvents)
  else next

def postReplay (id : String) : RequestPhase :=
  match env.jobIdParamSchema id with
  | none => .responded (.badRequest "Invalid job id format")
  | some jobId => .transaction (.claimReplay jobId)

/-- From its arrival to the first `await`. What throws before the routes is answered by the error
handler. -/
def receive (buckets : Buckets) (request : HttpRequest) (nowMs : ℚ) : Buckets × RequestPhase :=
  if !request.parses then (buckets, .responded .internalServerError)
  else if !requireApiKey env.apiKey request.apiKey then (buckets, .responded .unauthorized)
  else
    let key := defaultIdentify env.production request.testClientId request.ip
    match env.jobsRateLimiter.rateLimiter buckets key nowMs, request.route with
    | (buckets, .tooManyRequests n), _ => (buckets, .responded (.tooManyRequests n))
    | (buckets, .next), .create _ => (buckets, .getStats)
    | (buckets, .next), .replay id => (buckets, env.postReplay id)

def afterStats (pendingOutboxEvents : ℕ) : JobsRoute → Option RequestPhase
  | .create body => some (env.backpressure pendingOutboxEvents (env.postJob body))
  | .replay _ => none

end ApiEnv

/-- The rest of the handler, once its call is settled. -/
def afterCall : ApiCall → ApiResult → RequestPhase
  | .createJob _ _, .returned (some job) => .responded (.created job.id job.status)
  | .claimReplay _, .returned (some job) =>
    .responded (.replayed job.id job.status job.replayCount)
  | .claimReplay id, .returned none => .getJobById id
  | _, _ => .responded .internalServerError

def replayRefused (jobs : Jobs) (id : Uuid) : Response :=
  match jobs.get id with
  | none => .notFound
  | some current => .conflict current.status

/-! ## Requests together -/

structure RequestState where
  request : HttpRequest
  nowMs : ℚ
  phase : RequestPhase
  deriving DecidableEq, Repr

def RequestState.Answered (q : RequestState) : Prop := ∃ r, q.phase = .responded r

instance (q : RequestState) : Decidable q.Answered :=
  match h : q.phase with
  | .responded r => isTrue ⟨r, h⟩
  | .getStats | .stats _ | .transaction _ | .returned _ _ | .getJobById _ =>
    isFalse fun ⟨_, hr⟩ => by simp [h] at hr

/-- What a request asks of the limiter, where it gets that far. -/
def ApiEnv.draw (env : ApiEnv) (q : RequestState) : Option RateLimiter.Request :=
  if q.request.parses && requireApiKey env.apiKey q.request.apiKey then
    let key := defaultIdentify env.production q.request.testClientId q.request.ip
    some { key, nowMs := q.nowMs }
  else none

/-- The process and its database; the requests are in the order they came. -/
structure Api where
  server : Server
  buckets : Buckets
  requests : List RequestState

/-- `ok` says whether the statement a request awaits was executed. -/
inductive ApiAction
  | receive (request : HttpRequest) (nowMs : ℚ)
  | getStats (i : ℕ) (ok : Bool)
  | resume (i : ℕ)
  | statement (i : ℕ) (ok : Bool) (uuid : Uuid)
  | getJobById (i : ℕ) (ok : Bool)
  | clock (t : ℤ)
  | worker (c : Call)
  | dispatch (r : ℕ) (a : OutboxAction)

namespace Api

def start (now : ℤ) (db : Db) (buckets : Buckets) : Api where
  server := { now, db, txs := fun _ => none, locks := fun _ => none }
  buckets := buckets
  requests := []

def setPhase (s : Api) (i : ℕ) (q : RequestState) (phase : RequestPhase) : Api :=
  { s with requests := s.requests.set i { q with phase } }

/-- A request that goes on to a transaction makes its call. -/
def enter (server : Server) (i : ℕ) : RequestPhase → Option Server
  | .transaction c => server.step (.call i c)
  | _ => some server

/-- The request goes on from what it awaited. -/
def resume (env : ApiEnv) (q : RequestState) : Option RequestPhase :=
  match q.phase with
  | .stats pendingOutboxEvents => env.afterStats pendingOutboxEvents q.request.route
  | .returned c result => some (afterCall c result)
  | _ => none

/-- The call returns, or throws, with the last statement of its transaction. -/
def phaseOf (server : Server) (i : ℕ) (c : ApiCall) : RequestPhase :=
  match server.txs i with
  | some { phase := .done result, .. } => .returned c result
  | _ => .transaction c

def step (env : ApiEnv) (s : Api) : ApiAction → Option Api
  | .receive request nowMs =>
    let (buckets, phase) := env.receive s.buckets request nowMs
    (enter s.server s.requests.length phase).map fun server =>
      { server, buckets, requests := s.requests ++ [{ request, nowMs, phase }] }
  | .getStats i ok => s.requests[i]?.bind fun q =>
    match q.phase with
    | .getStats => some (s.setPhase i q (if ok
        then .stats (DeadLetter.getStats s.server.db).pendingOutboxEvents
        else .responded .internalServerError))
    | _ => none
  | .resume i => s.requests[i]?.bind fun q => (resume env q).bind fun phase =>
    (enter s.server i phase).map fun server => { s.setPhase i q phase with server }
  | .statement i ok uuid => s.requests[i]?.bind fun q =>
    match q.phase with
    | .transaction c => (s.server.step (.statement i ok uuid)).map fun server =>
      { s.setPhase i q (phaseOf server i c) with server }
    | _ => none
  | .getJobById i ok => s.requests[i]?.bind fun q =>
    match q.phase with
    | .getJobById id => some (s.setPhase i q (.responded (if ok
        then replayRefused s.server.db.jobs id else .internalServerError)))
    | _ => none
  | .clock t => (s.server.step (.clock t)).map fun server => { s with server }
  | .worker c => (s.server.step (.worker c)).map fun server => { s with server }
  | .dispatch r a => (s.server.step (.dispatch r a)).map fun server => { s with server }

def responses (s : Api) : List Response :=
  s.requests.filterMap fun q => match q.phase with
    | .responded r => some r
    | _ => none

/-! ## What a request has done -/

/-- A step of a request. -/
structure Effect where
  request : ℕ
  before : Api
  after : Api

def Effect.tables (e : Effect) : Server.Effect :=
  { tx := e.request, before := e.before.server.db, after := e.after.server.db }

def shown (s : Api) (a : ApiAction) (t : Api) : List Effect :=
  match a with
  | .receive _ _ => [{ request := s.requests.length, before := s, after := t }]
  | .getStats i _ | .resume i | .statement i _ _ | .getJobById i _ =>
    [{ request := i, before := s, after := t }]
  | _ => []

/-! ## The backlog -/

/-- The events that `createJob` transactions add. -/
def createdEvents (s : Api) (a : ApiAction) (t : Api) : List Uuid :=
  match a with
  | .statement i _ _ =>
    match s.server.txs i with
    | some { call := .createJob _ _, .. } => (t.server.db.outbox.events.rows.filter fun e =>
        s.server.db.outbox.events.get e.id = none).map (·.id)
    | _ => []
  | _ => []

def unpublished (events : OutboxEvents) (ids : List Uuid) : ℕ :=
  events.rows.countP fun e => e.publishedAt = none && e.id ∈ ids

end Api

/-- The request is between the snapshot of its `getStats` and the end of its `createJob`
transaction. One that backpressure or the schema will turn away has no such transaction. -/
def RequestState.inFlight (env : ApiEnv) (q : RequestState) : Bool :=
  match q.phase with
  | .stats pendingOutboxEvents =>
    match env.afterStats pendingOutboxEvents q.request.route with
    | some (.transaction _) => true
    | _ => false
  | .transaction (.createJob _ _) => true
  | _ => false

def Api.inFlight (env : ApiEnv) (s : Api) : ℕ := s.requests.countP (·.inFlight env)

end DeadLetter
