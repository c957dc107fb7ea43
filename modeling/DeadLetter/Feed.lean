import DeadLetter.Delivery
import DeadLetter.JobEvents
import DeadLetter.Poller
import DeadLetter.Stringify

/-!
# The event feed

The poller's events on their way to the dashboards. `Broadcaster.broadcast` sends each to every
client that is open, a connection brings what was sent on it in its order, and the effect of
`useJobEvents` takes what its socket is brought. A connection may be lost, with what it has yet to
bring. How PostgreSQL writes a UUID and JavaScript a `Date` is given.
-/

namespace DeadLetter

structure EventText where
  uuid : Uuid → CodeUnits
  date : ℤ → CodeUnits
  uuid_lt : ∀ k, ∀ u ∈ uuid k, u < 0x10000
  date_lt : ∀ t, ∀ u ∈ date t, u < 0x10000

def JobStatus.text : JobStatus → CodeUnits
  | .queued => ascii ['Q', 'U', 'E', 'U', 'E', 'D']
  | .processing => ascii ['P', 'R', 'O', 'C', 'E', 'S', 'S', 'I', 'N', 'G']
  | .completed => ascii ['C', 'O', 'M', 'P', 'L', 'E', 'T', 'E', 'D']
  | .failed => ascii ['F', 'A', 'I', 'L', 'E', 'D']
  | .retrying => ascii ['R', 'E', 'T', 'R', 'Y', 'I', 'N', 'G']
  | .deadLettered => ascii ['D', 'E', 'A', 'D', '_', 'L', 'E', 'T', 'T', 'E', 'R', 'E', 'D']

def statusKey : CodeUnits := ascii ['s', 't', 'a', 't', 'u', 's']

def updatedAtKey : CodeUnits := ascii ['u', 'p', 'd', 'a', 't', 'e', 'd', 'A', 't']

namespace JobUpdatedEvent

variable (x : EventText) (e : JobUpdatedEvent)

def json : Json :=
  .object [(JobEvents.typeKey, .string JobEvents.jobUpdated), (jobIdKey, .string (x.uuid e.jobId)),
    (statusKey, .string e.status.text), (updatedAtKey, .string (x.date e.updatedAt))]

/-- `JSON.stringify(event)`. -/
def payload : CodeUnits := Json.stringify (e.json x)

end JobUpdatedEvent

/-- A socket of the server, with what was sent on it and has not come in. -/
structure Client where
  readyState : ReadyState := .opened
  frames : List CodeUnits := []
  deriving DecidableEq, Repr

/-- What `broadcast` does to a client. -/
def Client.send (payload : CodeUnits) (c : Client) : Client :=
  if c.readyState = .opened then { c with frames := c.frames ++ [payload] } else c

/-- The poller, each dashboard's page, and the server's end of each page's sockets. -/
structure Feed where
  poller : Poller
  pages : ℕ → JobEvents
  clients : ℕ → ℕ → Option Client

inductive FeedAction
  | poller (a : PollerAction)
  | accept (d i : ℕ)
  | drop (d i : ℕ)
  | message (d i : ℕ)
  | page (d : ℕ) (a : JobEventsAction)

inductive FeedEvent
  | wrote (c : JobChange)
  | broadcast (c : JobChange)
  | accepted (d i : ℕ)
  | dropped (d i : ℕ)
  | delivered (d i : ℕ) (data : CodeUnits)
  deriving DecidableEq, Repr

def isMessage : JobEventsAction → Bool
  | .socketMessage _ _ => true
  | _ => false

namespace Feed

def init : Feed where
  poller := Poller.init
  pages := fun _ => JobEvents.mounted
  clients := fun _ _ => none

def setPage (s : Feed) (d : ℕ) (page : JobEvents) : Feed :=
  { s with pages := Function.update s.pages d page }

def setClient (s : Feed) (d i : ℕ) (c : Client) : Feed :=
  { s with clients := fun e k => if e = d ∧ k = i then some c else s.clients e k }

variable (x : EventText)

def broadcast (s : Feed) (e : JobUpdatedEvent) : Feed :=
  { s with clients := fun d i => (s.clients d i).map (Client.send (e.payload x)) }

def step (s : Feed) : FeedAction → Option Feed
  | .poller a => (s.poller.step a).map fun poller =>
      ((s.poller.broadcasts a poller).map JobChange.event).foldl (broadcast x) { s with poller }
  | .accept d i =>
    match s.clients d i with
    | none => if (s.pages d).isLive i then some (s.setClient d i {}) else none
    | some _ => none
  | .drop d i =>
    match s.clients d i with
    | some c =>
      if c.readyState = .opened then some (s.setClient d i { c with readyState := .closed })
      else none
    | none => none
  | .message d i =>
    match s.clients d i with
    | some ⟨readyState, data :: frames⟩ =>
      ((s.pages d).step (.socketMessage i data)).map fun page =>
        (s.setPage d page).setClient d i ⟨readyState, frames⟩
    | _ => none
  | .page d a => if isMessage a then none else ((s.pages d).step a).map (s.setPage d)

/-- The row that a commit leaves, if it changes one. -/
def wrote (s : Poller) : PollerAction → List FeedEvent
  | .commit x id op => match s.writers x with
    | some begunAt => ((Call.run s.jobs ⟨id, begunAt, op⟩).2.map fun j => .wrote j.change).toList
    | none => []
  | _ => []

def shown (s : Feed) (a : FeedAction) (t : Feed) : List FeedEvent :=
  match a with
  | .poller a => wrote s.poller a ++ (s.poller.broadcasts a t.poller).map .broadcast
  | .accept d i => [.accepted d i]
  | .drop d i => [.dropped d i]
  | .message d i => match s.clients d i with
    | some ⟨_, data :: _⟩ => [.delivered d i data]
    | _ => []
  | .page _ _ => []

/-! ## What a connection is to bring -/

section Connection

variable (d i : ℕ)

/-- Whether the server's end of socket `i` of page `d` is open after the event. -/
def tune (listening : Bool) : FeedEvent → Bool
  | .accepted e k => if e = d ∧ k = i then true else listening
  | .dropped e k => if e = d ∧ k = i then false else listening
  | _ => listening

/-- What is broadcast while it is open. -/
def fedFrom : Bool → List FeedEvent → List JobChange
  | _, [] => []
  | true, .broadcast c :: l => c :: fedFrom true l
  | listening, e :: l => fedFrom (tune d i listening e) l

def fed (l : List FeedEvent) : List JobChange := fedFrom d i false l

/-- What the socket has been brought. -/
def told (l : List FeedEvent) : List CodeUnits :=
  l.filterMap fun
    | .delivered e k data => if e = d ∧ k = i then some data else none
    | _ => none

/-- What any socket of the page has been brought. -/
def toldTo (l : List FeedEvent) : List CodeUnits :=
  l.filterMap fun
    | .delivered e _ data => if e = d then some data else none
    | _ => none

end Connection

/-- Every socket is brought what was broadcast while it was open, each event once and in order, or
the connection was lost before the rest; the page's last event is the last that one of its sockets
was brought; and each is that of a version of a row that a transaction left. -/
structure Faithful (l : List FeedEvent) (s : Feed) : Prop where
  told : ∀ d i, ∃ rest, (fed d i l).map (fun c => c.event.payload x) = told d i l ++ rest
    ∧ ∀ c ∈ s.clients d i, c.frames = rest
  latest : ∀ d, (s.pages d).lastEvent = (toldTo d l).getLast?.bind Json.parse
  read : ∀ d, ∀ data ∈ toldTo d l,
    ∃ c, .broadcast c ∈ l ∧ Json.parse data = some (c.event.json x)
  written : ∀ c, .broadcast c ∈ l → .wrote c ∈ l

/-! ## Telling all -/

def pollerPart : FeedAction → Option PollerAction
  | .poller a => some a
  | _ => none

/-- Once a poll has ended and all has come in on a socket that was accepted before it and was not
dropped, the socket has been brought the versions that the poll found, but for those that had been
broadcast before it was accepted. -/
def TellsAll (as : List FeedAction) : Prop :=
  ∀ l₁ d k l₂ i l₃ l₄ r t, as = l₁ ++ .accept d k :: (l₂ ++ .poller (.query i) ::
      (l₃ ++ .poller (.finish i) :: l₄)) →
    (∀ a ∈ l₃.filterMap pollerPart, Poller.ends a ≠ some i) → .drop d k ∉ as →
    Transition.exec (step x) init (l₁ ++ .accept d k :: l₂) = some r →
    Transition.exec (step x) init as = some t → (∀ c ∈ t.clients d k, c.frames = []) →
    ∀ j ∈ r.poller.jobs, ∀ startup ∈ r.poller.startup, toTimestamp startup < j.updatedAt →
      .broadcast j.change ∈ Transition.trace (step x) shown init l₁
        ∨ j.change.event.payload x ∈ told d k (Transition.trace (step x) shown init as)

end Feed

end DeadLetter
