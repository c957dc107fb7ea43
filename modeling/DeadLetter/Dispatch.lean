import DeadLetter.Outbox
import DeadLetter.Transition

/-!
# The outbox over whole runs

Any number of dispatcher runs, in any number of processes, over one outbox, which `createJob` and
`claimReplay` add events to. The database's clock is set by actions of its own.
-/

namespace DeadLetter

structure Dispatch where
  now : ℤ
  outbox : Outbox

inductive DispatchAction
  | clock (t : ℤ)
  | insert (id jobId : Uuid)
  | run (r : ℕ) (a : OutboxAction)

/-- What a step shows: the rows a claim took and when, the job whose publish returned, the event a
mark wrote. -/
inductive Dispatched
  | claimed (events : List OutboxEvent) (now : ℤ)
  | published (jobId : Uuid)
  | markedPublished (id : Uuid)
  | markedFailed (id : Uuid)
  deriving DecidableEq, Repr

namespace Dispatch

def init : Dispatch := { now := 0, outbox := { events := Table.empty, runs := fun _ => none } }

def step (s : Dispatch) : DispatchAction → Option Dispatch
  | .clock t => some { s with now := t }
  | .insert id jobId =>
    (insertOutboxEvent s.now s.outbox.events id jobId).map fun events =>
      { s with outbox := { s.outbox with events } }
  | .run r a => (s.outbox.step s.now r a).map fun outbox => { s with outbox }

def shownBy (s : Dispatch) (r : ℕ) : OutboxAction → List Dispatched
  | .claim scan reply =>
    if reply.executed then
      [.claimed (claimPendingOutboxEvents s.now s.outbox.events batchSize scan).2 s.now]
    else []
  | .publish .ok => ((s.outbox.runs r).map fun run => .published run.event.jobId).toList
  | .publish (.threw _ _) => []
  | .markPublished reply _ =>
    if reply.executed then
      ((s.outbox.runs r).map fun run => .markedPublished run.event.id).toList
    else []
  | .markFailed reply =>
    if reply.executed then
      ((s.outbox.runs r).map fun run => .markedFailed run.event.id).toList
    else []
  | .crash => []

def shown (s : Dispatch) (a : DispatchAction) (_ : Dispatch) : List Dispatched :=
  match a with
  | .run r a => s.shownBy r a
  | _ => []

def Forward (s : Dispatch) (_ : DispatchAction) (t : Dispatch) : Prop := s.now ≤ t.now

/-! ## Marks of a superseded run -/

/-- The events that a claim took, and the run that made it. -/
def taken (s : Dispatch) (a : DispatchAction) (_ : Dispatch) : List (ℕ × List Uuid) :=
  match a with
  | .run r (.claim scan reply) =>
    if reply.executed then
      [(r, (claimPendingOutboxEvents s.now s.outbox.events batchSize scan).2.map (·.id))]
    else []
  | _ => []

def claimer (l : List (ℕ × List Uuid)) (k : Uuid) : Option ℕ :=
  (l.filter (k ∈ ·.2)).getLast?.map (·.1)

/-- The reply of a mark. -/
def markReply : OutboxAction → Option Reply
  | .markPublished reply _ | .markFailed reply => some reply
  | _ => none

/-- Run `r` is about to mark an event that another run has claimed since, and that is published or
under that claim. -/
def Superseded (l : List (ℕ × List Uuid)) (s : Dispatch) (r : ℕ) (run : DispatchRun) : Prop :=
  claimer l run.event.id ≠ some r ∧ ∃ row ∈ s.outbox.events.get run.event.id,
    row.publishedAt ≠ none ∨ row.claimedAt ≠ none

/-- What holds at every mark of a run of the system. -/
def AtMarks (as : List DispatchAction)
    (P : List (ℕ × List Uuid) → Dispatch → ℕ → OutboxAction → DispatchRun → Dispatch → Prop) :
    Prop :=
  ∀ bs r a cs s t run, as = bs ++ .run r a :: cs → (markReply a).isSome →
    Transition.exec step init bs = some s → s.step (.run r a) = some t →
    s.outbox.runs r = some run → P (Transition.trace step taken init bs) s r a run t

/-- A superseded mark leaves its event's row as it is. -/
def Undisturbed (as : List DispatchAction) : Prop :=
  AtMarks as fun l s r _ run t => Superseded l s r run →
    t.outbox.events.get run.event.id = s.outbox.events.get run.event.id

/-- A superseded mark is not executed, or sets `published_at` to what it is. -/
def Spared (as : List DispatchAction) : Prop :=
  AtMarks as fun l s r a run _ => Superseded l s r run →
    (∃ reply ∈ markReply a, reply.executed = false)
      ∨ ∃ reply err, a = .markPublished reply err
        ∧ ∀ row ∈ s.outbox.events.get run.event.id, row.publishedAt = some s.now

/-- The run that makes a mark, and its reply. -/
def marker : DispatchAction → Option (ℕ × Reply)
  | .run r a => (markReply a).map (r, ·)
  | _ => none

/-- The clock does not go back, and a mark is executed at most 30 seconds after its run's claim. -/
def Punctual (s : Dispatch) (a : DispatchAction) (t : Dispatch) : Prop :=
  s.now ≤ t.now ∧ ∀ m ∈ marker a, m.2.executed = true → ∀ run ∈ s.outbox.runs m.1,
    ∀ u ∈ run.event.claimedAt, s.now ≤ u + seconds staleClaimThresholdSeconds

/-! ## The calls of the runs -/

/-- A statement of the outbox that was executed, or a publish, with the event it is about. A claim
has the events it took, and those of them that another claim had left. -/
inductive OutboxCall
  | inserted (id jobId : Uuid) (now : ℤ)
  | claimed (r : ℕ) (ids stale : List Uuid) (now : ℤ)
  | publish (r : ℕ) (id : Uuid)
  | published (id : Uuid) (now : ℤ)
  | failed (id : Uuid) (message : String)
  deriving DecidableEq, Repr

def callsBy (s : Dispatch) (r : ℕ) : OutboxAction → List OutboxCall
  | .claim scan reply =>
    if reply.executed then
      let ids := (claimPendingOutboxEvents s.now s.outbox.events batchSize scan).2.map (·.id)
      let stale := ids.filter fun k => ((s.outbox.events.get k).bind (·.claimedAt)).isSome
      [.claimed r ids stale s.now]
    else []
  | .publish _ => ((s.outbox.runs r).map fun run => .publish r run.event.id).toList
  | .markPublished reply _ =>
    if reply.executed then
      ((s.outbox.runs r).map fun run => .published run.event.id s.now).toList
    else []
  | .markFailed reply =>
    if reply.executed then
      match s.outbox.runs r with
      | some ⟨.markFailed message, event, _, _, _, _⟩ => [.failed event.id message]
      | _ => []
    else []
  | .crash => []

def calls (s : Dispatch) (a : DispatchAction) (_ : Dispatch) : List OutboxCall :=
  match a with
  | .insert id jobId => [.inserted id jobId s.now]
  | .run r a => s.callsBy r a
  | .clock _ => []

namespace OutboxCall

variable (k : Uuid)

def inserts : OutboxCall → Option (Uuid × ℤ)
  | .inserted id jobId now => if id = k then some (jobId, now) else none
  | _ => none

def claims : OutboxCall → Bool
  | .claimed _ ids _ _ => k ∈ ids
  | _ => false

def reclaims : OutboxCall → Bool
  | .claimed _ _ stale _ => k ∈ stale
  | _ => false

def publishes : OutboxCall → Bool
  | .publish _ id => id = k
  | _ => false

def publishedAt : OutboxCall → Option ℤ
  | .published id now => if id = k then some now else none
  | _ => none

def failure : OutboxCall → Option String
  | .failed id message => if id = k then some message else none
  | _ => none

/-- The `claimed_at` that it leaves. -/
def claimedAt : OutboxCall → Option (Option ℤ)
  | .claimed _ ids _ now => if k ∈ ids then some (some now) else none
  | .failed id _ => if id = k then some none else none
  | _ => none

end OutboxCall

/-- A row holds what the calls about it say, and it was published no more often than it was claimed,
nor claimed more often than once, once more for each failure, and once for each claim left. -/
structure Marked (l : List OutboxCall) (e : OutboxEvent) : Prop where
  inserted : l.filterMap (OutboxCall.inserts e.id) = [(e.jobId, e.createdAt)]
  claimedAt : e.claimedAt = (l.filterMap (OutboxCall.claimedAt e.id)).getLast?.join
  publishedAt : e.publishedAt = (l.filterMap (OutboxCall.publishedAt e.id)).getLast?
  attempts : e.attempts = (l.filterMap (OutboxCall.failure e.id)).length
  lastError : e.lastError = (l.filterMap (OutboxCall.failure e.id)).getLast?
  claims : l.countP (OutboxCall.claims e.id)
    ≤ 1 + e.attempts + l.countP (OutboxCall.reclaims e.id)
  publishes : l.countP (OutboxCall.publishes e.id) ≤ l.countP (OutboxCall.claims e.id)

end Dispatch

end DeadLetter
