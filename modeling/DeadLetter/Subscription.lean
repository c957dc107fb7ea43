import DeadLetter.Connection
import DeadLetter.Transition

/-!
# The worker's subscription

`subscribe` of `consumer.ts`, as `startConsumer` and `resubscribeWithBackoff` call it, over the
connection module, which the publishers of the running handlers call too. A consumer is attached
when the reply to `consume` comes; `subscribe` returns when it is resumed.
-/

namespace DeadLetter

inductive Caller
  | startup
  | loop
  | publisher (i : ℕ)
  deriving DecidableEq, Repr

/-- What `subscribe` awaits, or has the reply to. -/
inductive Subscribe
  | getChannel
  | gotChannel (n : ℕ)
  | prefetch (n : ℕ)
  | prefetched (n : ℕ)
  | consume (n : ℕ)
  | consumed (n : ℕ)
  deriving DecidableEq, Repr

/-- `startConsumer`. -/
inductive Startup
  | notStarted
  | subscribing (s : Subscribe)
  | succeeded
  | failed
  deriving DecidableEq, Repr

/-- A run of `resubscribeWithBackoff` past its guard: it subscribes, or sleeps. -/
structure Loop where
  delayMs : ℕ := 1000
  subscribing : Option Subscribe := none
  deriving DecidableEq, Repr

structure Subscriber where
  link : Link Caller := {}
  startup : Startup := .notStarted
  /-- The loop that runs; `reconnecting` is set while one does. -/
  loop : Option Loop := none
  /-- The channels that consumers were attached to, the last first. -/
  consumers : List ℕ := []

inductive SubscriberAction
  | link (a : LinkAction Caller)
  | startConsumer
  | wake
  | reply (startup : Bool) (ok : Bool)
  | resume (startup : Bool)
  deriving DecidableEq, Repr

namespace Subscriber

def init : Subscriber := {}

/-- `min(delayMs * 2, RECONNECT_MAX_DELAY_MS)`. -/
def nextDelayMs (delayMs : ℕ) : ℕ := min (delayMs * 2) 30000

/-- The `subscribe` in progress, of `startConsumer` or of the loop. -/
def subscribing (s : Subscriber) (startup : Bool) : Option Subscribe :=
  if startup then
    match s.startup with
    | .subscribing sub => some sub
    | _ => none
  else s.loop.bind (·.subscribing)

def setSubscribing (s : Subscriber) (startup : Bool) (sub : Subscribe) : Subscriber :=
  if startup then { s with startup := .subscribing sub }
  else { s with loop := s.loop.map fun l => { l with subscribing := some sub } }

/-- `subscribe` throws: the process is to exit, or the loop sleeps. -/
def throw (s : Subscriber) (startup : Bool) : Subscriber :=
  if startup then { s with startup := .failed }
  else { s with loop := s.loop.map fun l => { l with subscribing := none } }

def finish (s : Subscriber) (startup : Bool) : Subscriber :=
  if startup then { s with startup := .succeeded } else { s with loop := none }

/-- Where `subscribe` is after its call of `getChannel`, which may return at once. -/
def calledGetChannel : LinkOutput Caller → Subscribe
  | .resolved _ n => .gotChannel n
  | _ => .getChannel

def callGetChannel (s : Subscriber) (startup : Bool) : Option Subscriber :=
  (s.link.getChannel (if startup then .startup else .loop)).map fun (link, o) =>
    Subscriber.setSubscribing { s with link } startup (calledGetChannel o)

def react (s : Subscriber) : LinkOutput Caller → Option Subscriber
  | .nothing => some s
  | .resolved .startup n => some (s.setSubscribing true (.gotChannel n))
  | .resolved .loop n => some (s.setSubscribing false (.gotChannel n))
  | .resolved (.publisher _) _ => some s
  | .rejected .startup => some (s.throw true)
  | .rejected .loop => some (s.throw false)
  | .rejected (.publisher _) => some s
  | .invalidated =>
    match s.loop with
    | some _ => some s
    | none => Subscriber.callGetChannel { s with loop := some {} } false

/-- The calls of the subscriptions are not made at will. -/
def allowed : LinkAction Caller → Bool
  | .getChannel .startup | .getChannel .loop => false
  | _ => true

def step (s : Subscriber) : SubscriberAction → Option Subscriber
  | .link a =>
    if allowed a then
      (s.link.step workerTopology a).bind fun (link, o) => Subscriber.react { s with link } o
    else none
  | .startConsumer =>
    match s.startup with
    | .notStarted => s.callGetChannel true
    | _ => none
  | .wake =>
    match s.loop with
    | some { delayMs, subscribing := none } =>
      Subscriber.callGetChannel { s with loop := some { delayMs := nextDelayMs delayMs } } false
    | _ => none
  | .reply startup ok =>
    match s.subscribing startup, ok with
    | some (.prefetch _), false | some (.consume _), false => some (s.throw startup)
    | some (.prefetch n), true =>
      if (s.link.pairs n).isOpen then some (s.setSubscribing startup (.prefetched n)) else none
    | some (.consume n), true =>
      if (s.link.pairs n).isOpen then
        some (Subscriber.setSubscribing { s with consumers := n :: s.consumers } startup
          (.consumed n))
      else none
    | _, _ => none
  | .resume startup =>
    match s.subscribing startup with
    | some (.gotChannel n) => some (s.setSubscribing startup (.prefetch n))
    | some (.prefetched n) => some (s.setSubscribing startup (.consume n))
    | some (.consumed _) => some (s.finish startup)
    | _ => none

/-! ## Detachment -/

/-- A consumer is attached to an open channel, where `startConsumer` has succeeded, every event is
delivered and no loop runs. -/
def Attached (s : Subscriber) : Prop :=
  s.startup = .succeeded → s.link.events = [] → s.loop = none →
    ∃ n ∈ s.consumers, (s.link.pairs n).isOpen = true

/-- A loop runs that is still to attach its consumer. -/
def resubscribing (s : Subscriber) : Bool :=
  match s.loop with
  | some { subscribing := some (.consumed _), .. } | none => false
  | _ => true

def closes : SubscriberAction → Bool
  | .link (.closeConnection _) => true
  | _ => false

def delivered : SubscriberAction → Option ℕ
  | .link (.deliver n _) => some n
  | _ => none

/-- An event of a connection that a consumer was attached to finds a loop that is still to attach
another, or finds the connection cached and no loop running, or leaves another consumer whose
connection is open or has an event to deliver. -/
def Heard (s : Subscriber) (a : SubscriberAction) : Prop :=
  ∀ n ∈ delivered a, n ∈ s.consumers → s.resubscribing = false →
    (s.link.channel = some n ∧ s.loop = none) ∨ ∃ m ∈ s.consumers, m ≠ n ∧ s.link.Told m

instance (s : Subscriber) (a : SubscriberAction) : Decidable (Heard s a) :=
  inferInstanceAs (Decidable (∀ n ∈ delivered a, _ → _ → _ ∨ _))

instance (s : Subscriber) : Decidable s.Attached := inferInstanceAs (Decidable (_ → _ → _ → _))

end Subscriber

end DeadLetter
