import DeadLetter.Job

/-!
# The dashboard's selected job

`App.tsx` with what `JobDetail.tsx` has it do: the job that is selected, the one that was last
fetched, and the requests in flight, which are answered in any order. Effects run with the render
that they follow. The overview is kept as the ids of its rows.
-/

namespace DeadLetter

/-- What of a job `JobDetail` acts on. -/
structure JobDetail where
  id : Uuid
  status : JobStatus
  deriving DecidableEq, Repr

/-- A replay in flight: its job, the one that its `onReplayed` is to refresh, and whether the
`JobDetail` that asked for it is still on the page. -/
structure Replay where
  id : Uuid
  onReplayed : Uuid
  mounted : Bool
  deriving DecidableEq, Repr

structure Dashboard where
  /-- The rows of `JobList`, once the overview is loaded. -/
  jobs : Option (List Uuid) := none
  selectedJob : Option JobDetail := none
  selectedJobId : Option Uuid := none
  /-- The job of `lastEvent`. -/
  lastEvent : Option Uuid := none
  /-- The requests of `getJob` in flight. -/
  requests : List Uuid := []
  replays : List Replay := []
  deriving DecidableEq, Repr

inductive DashboardAction
  | overview (jobs : List Uuid)
  | select (id : Uuid)
  | back
  | jobUpdated (id : Uuid)
  | replay
  | replayReply (replay : Replay) (ok : Bool)
  | job (job : JobDetail)
  | notFound (id : Uuid)
  | failed (id : Uuid)
  deriving DecidableEq, Repr

namespace Dashboard

/-- The job that `JobDetail` is given, where `App` renders it. -/
def rendered (s : Dashboard) : Option JobDetail :=
  if s.selectedJobId.isSome then s.selectedJob else none

/-- `refreshSelectedJob`, up to its await. -/
def refreshSelectedJob (s : Dashboard) (id : Uuid) : Dashboard :=
  { s with requests := s.requests ++ [id] }

/-- The effect on `lastEvent` and `selectedJobId`. -/
def eventEffect (s : Dashboard) : Dashboard :=
  match s.lastEvent, s.selectedJobId with
  | some eventId, some id => if eventId = id then s.refreshSelectedJob id else s
  | _, _ => s

/-- `handleSelect`, by a click on a row, and the effects after it. -/
def handleSelect (s : Dashboard) (id : Uuid) : Option Dashboard :=
  match s.selectedJobId, s.jobs with
  | none, some jobs =>
    if id ∈ jobs then
      some (eventEffect (refreshSelectedJob { s with selectedJobId := some id } id))
    else none
  | _, _ => none

/-- The selection and the job are set to `null`: there is no `JobDetail` on the page any more. -/
def deselect (s : Dashboard) : Dashboard :=
  { s with
    selectedJobId := none
    selectedJob := none
    replays := s.replays.map fun replay => { replay with mounted := false } }

/-- `handleBack`, by a click on the button of `JobDetail`. -/
def handleBack (s : Dashboard) : Option Dashboard := s.rendered.map fun _ => s.deselect

/-- The state `replaying` of the `JobDetail` on the page. -/
def replaying (s : Dashboard) : Bool := s.replays.any (·.mounted)

/-- `handleReplay`, up to its await, by a click on the button that `JobDetail` has for a
dead-lettered job and disables while it is `replaying`. -/
def handleReplay (s : Dashboard) : Option Dashboard :=
  match s.rendered, s.selectedJobId with
  | some job, some id =>
    if job.status = .deadLettered ∧ s.replaying = false then
      some { s with replays := s.replays ++ [{ id := job.id, onReplayed := id, mounted := true }] }
    else none
  | _, _ => none

def step (s : Dashboard) : DashboardAction → Option Dashboard
  | .overview jobs => some { s with jobs := some jobs }
  | .select id => s.handleSelect id
  | .back => s.handleBack
  | .jobUpdated id => some (eventEffect { s with lastEvent := some id })
  | .replay => s.handleReplay
  | .replayReply replay ok =>
    if replay ∈ s.replays then
      let s := { s with replays := s.replays.erase replay }
      some (if ok then s.refreshSelectedJob replay.onReplayed else s)
    else none
  | .job job =>
    if job.id ∈ s.requests then
      some { s with requests := s.requests.erase job.id, selectedJob := some job }
    else none
  | .notFound id =>
    if id ∈ s.requests then some (deselect { s with requests := s.requests.erase id }) else none
  | .failed id =>
    if id ∈ s.requests then some { s with requests := s.requests.erase id } else none

/-- The job that a click on its button replays. -/
def replayed (s : Dashboard) : DashboardAction → Option Uuid
  | .replay => s.rendered.map (·.id)
  | _ => none

/-! ## The right job -/

/-- The job that `JobDetail` is given is the selected one. -/
def Right (s : Dashboard) : Prop := ∀ job, s.rendered = some job → s.selectedJobId = some job.id

/-- A step shows and replays the selected job, and no 404 but its own clears the selection. -/
structure RightStep (s : Dashboard) (a : DashboardAction) (t : Dashboard) : Prop where
  shows : t.Right
  replays : ∀ id, s.replayed a = some id → s.selectedJobId = some id
  clears : ∀ id, a = .notFound id → s.selectedJobId ≠ some id → t.selectedJobId = s.selectedJobId

/-- A request is answered while its job is selected, or none is; and a job is selected with no other
left over from a request that was answered while none was. -/
def Timely (s : Dashboard) : DashboardAction → Prop
  | .job job => s.selectedJobId = none ∨ s.selectedJobId = some job.id
  | .notFound id => s.selectedJobId = none ∨ s.selectedJobId = some id
  | .select id => ∀ job, s.selectedJob = some job → job.id = id
  | _ => True

end Dashboard

end DeadLetter
