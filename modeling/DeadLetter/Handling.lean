import DeadLetter.Delivery

/-!
# A delivery and the database

The handler with the jobs table that its statements run on, the database being reachable and the
channel open. node-postgres sends a parameter as text, and PostgreSQL reads it as a UUID: both are
given (`Pg`), but for what they make of a missing parameter and of a NUL character. An object may be
nested too deep to be sent: what is thrown then has no code. Others change the table at any time.
-/

namespace DeadLetter

/-- How a value is sent as a parameter, `none` where its serialisation throws, and how a `uuid` is
read from text. -/
structure Pg where
  text : Json → Option CodeUnits
  uuid : CodeUnits → Option Uuid
  text_string : ∀ s, text (.string s) = some s

/-- What a parameter of type `uuid` comes to: SQL's `NULL`, an error with the code it has, or a
UUID. -/
inductive PgParam
  | null
  | error (code : Option String)
  | uuid (id : Uuid)
  deriving DecidableEq, Repr

namespace Pg

variable (pg : Pg)

/-- `22021` is `character_not_in_repertoire`, `22P02` is `invalid_text_representation`. -/
def param : Option Json → PgParam
  | none | some .null => .null
  | some v =>
    match pg.text v with
    -- node-postgres throws, and sends nothing
    | none => .error none
    | some text =>
      if 0 ∈ text then .error (some "22021")
      else
        match pg.uuid text with
        | none => .error (some "22P02")
        | some id => .uuid id

/-- `claimJob`, and the table it leaves. -/
def claimJob (now : ℤ) (jobs : Jobs) (jobId : Option Json) :
    Jobs × Except (Option String) (Option Job) :=
  match pg.param jobId with
  | .null => (jobs, .ok none)
  | .error code => (jobs, .error code)
  | .uuid id => ((DeadLetter.claimJob now jobs id).1, .ok (DeadLetter.claimJob now jobs id).2)

/-- A mark, which throws where it returns no row. -/
def mark (now : ℤ) (jobs : Jobs) (jobId : Option Json) (op : JobOp) : Jobs × Bool :=
  match pg.param jobId with
  | .uuid id => ((Call.run jobs ⟨id, now, op⟩).1, (Call.run jobs ⟨id, now, op⟩).2.isSome)
  | _ => (jobs, false)

end Pg

structure Handling where
  delivery : Delivery
  jobs : Jobs

inductive HandlingAction
  | claimJob (now : ℤ)
  | getJobById
  | processJob
  | record (now : ℤ)
  | publish (ok : Bool)
  | wake
  /-- Another party leaves the table so. -/
  | others (jobs : Jobs)

def HandlingAction.own : HandlingAction → Bool
  | .others _ => false
  | _ => true

/-- `processJob`, which throws errors only. -/
def processed (job : Job) : Except ThrownValue Unit :=
  match processJob job with
  | .ok () => .ok ()
  | .error e => .error { message := some e.message, nonRetryable := e.nonRetryable }

namespace Handling

variable (pg : Pg)

def start (body : List UInt8) (jobs : Jobs) : Handling := ⟨(Delivery.receive body).1, jobs⟩

/-- What the handler's await comes to, and the table it leaves. -/
def reply (s : Handling) : HandlingAction → Option (DeliveryAction × Jobs)
  | .claimJob now =>
    let (jobs, r) := pg.claimJob now s.jobs s.delivery.jobId
    some (.claimJob r, jobs)
  | .getJobById => some (.getJobById, s.jobs)
  | .processJob =>
    match s.delivery.phase with
    | .processJob job => some (.processJob (processed job), s.jobs)
    | _ => none
  | .record now =>
    match s.delivery.phase with
    | .record outcome =>
      let (jobs, ok) := pg.mark now s.jobs s.delivery.jobId outcome.op
      some (.record ok, jobs)
    | _ => none
  | .publish ok => some (.publish ok, s.jobs)
  | .wake => some (.wake, s.jobs)
  | .others _ => none

def step (s : Handling) (a : HandlingAction) : Option Handling :=
  match a with
  | .others jobs => some { s with jobs }
  | a => (s.reply pg a).bind fun (b, jobs) => (s.delivery.step b).map fun delivery =>
    { delivery, jobs }

def shown (s : Handling) (a : HandlingAction) (t : Handling) : List DeliveryEvent :=
  match s.reply pg a with
  | some (b, _) => s.delivery.shown b t.delivery
  | none => []

/-- All that the handler does in a run. -/
def events (body : List UInt8) (jobs : Jobs) (as : List HandlingAction) : List DeliveryEvent :=
  (Delivery.receive body).2 ++ Transition.trace (step pg) (shown pg) (start body jobs) as

end Handling

/-! ## Poison -/

/-- The body is an object whose `jobId` is the id of a job in the table. -/
def Names (pg : Pg) (body : List UInt8) (jobs : Jobs) : Prop :=
  ∃ content id job, Json.parse (utf8Decode body) = some content
    ∧ pg.param (content.get jobIdKey) = .uuid id ∧ jobs.get id = some job

/-- The handler settles the message once and never rejects, whatever the table is; and where the
body names no job it acks the message, and neither requeues it nor changes a row. -/
structure Harmless (pg : Pg) (body : List UInt8) (jobs : Jobs) (as : List HandlingAction)
    (t : Handling) : Prop where
  resolves : t.delivery.phase ≠ .rejected
  ends : as.countP (·.own) ≤ 6
  continues : t.delivery.phase.ended = false →
    ∃ a u, a.own = true ∧ t.step pg a = some u
  settles : (Handling.events pg body jobs as).countP (·.settles)
    = if t.delivery.phase.ended = true then 1 else 0
  discards : Transition.Steps (Handling.step pg)
      (fun s a _ => (∃ now, a = .claimJob now) → ¬ Names pg body s.jobs)
      (Handling.start body jobs) as →
    (∀ e ∈ Handling.events pg body jobs as, e = .acked)
      ∧ Transition.Steps (Handling.step pg) (fun s a t => a.own = true → t.jobs = s.jobs)
        (Handling.start body jobs) as

/-- A value that cannot be sent as a parameter, or has a NUL in it as it is sent. -/
def Pg.Refuses (pg : Pg) (v : Json) : Prop := v ≠ .null ∧ ∀ text, pg.text v = some text → 0 ∈ text

/-- JSON's `null`, or an object whose `jobId` is refused. -/
def Poison (pg : Pg) (body : List UInt8) : Prop :=
  Json.parse (utf8Decode body) = some .null
    ∨ ∃ content v, Json.parse (utf8Decode body) = some content
      ∧ content.get jobIdKey = some v ∧ pg.Refuses v

end DeadLetter
