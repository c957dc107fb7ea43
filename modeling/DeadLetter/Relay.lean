import DeadLetter.Dispatch
import DeadLetter.Wire

/-!
# The outbox and the broker's connections

A publish on a channel made by `createChannel` is a write to a socket's buffer: it returns before
the broker has the message. The connection is the one that `getChannel` gives the run; connections
are numbered over all processes, and a process that dies loses its own.
-/

namespace DeadLetter

structure Relay where
  dispatch : Dispatch
  wire : Wire ℕ Uuid

inductive RelayAction
  | dispatch (c : ℕ) (a : DispatchAction)
  | flush (c : ℕ)
  | lose (c : ℕ)

namespace Relay

def init : Relay := { dispatch := Dispatch.init, wire := {} }

def publishes (s : Relay) : DispatchAction → Option Uuid
  | .run r (.publish reply) =>
    if reply.enqueued then (s.dispatch.outbox.runs r).map fun run => run.event.jobId else none
  | _ => none

def step (s : Relay) : RelayAction → Option Relay
  | .dispatch c a => (s.dispatch.step a).map fun dispatch =>
    { dispatch
      wire := match s.publishes a with
        | some jobId => s.wire.write c jobId
        | none => s.wire }
  | .flush c => (s.wire.flush c).map fun wire => { s with wire }
  | .lose c => some { s with wire := s.wire.lose c }

/-- A published event is one whose message the broker has accepted. -/
def PublishedDelivered (s : Relay) : Prop :=
  ∀ e ∈ s.dispatch.outbox.events, e.publishedAt ≠ none → s.wire.Delivered e.jobId

def marks (s : Relay) : RelayAction → Option OutboxEvent
  | .dispatch _ (.run r (.markPublished reply _)) =>
    if reply.executed then (s.dispatch.outbox.runs r).map fun run => run.event else none
  | _ => none

/-- What a step does to the connections. -/
def wired (s : Relay) (a : RelayAction) (_ : Relay) : List (WireAction ℕ Uuid) :=
  match a with
  | .dispatch c a => (s.publishes a).toList.map (.write c)
  | .flush c => [.flush c]
  | .lose c => [.lose c]

/-- Every mark comes after the flush: a message for the event's job was written to some connection,
and since then that has been flushed, the message with what stood before it, and not lost before. -/
def MarksFlushed (as : List RelayAction) : Prop :=
  ∀ bs a cs s t, as = bs ++ a :: cs → Transition.exec step init bs = some s →
    s.step a = some t → ∀ e ∈ s.marks a,
      Wire.Flushed (Transition.trace step wired init bs) e.jobId

end Relay

end DeadLetter
