import Mathlib.Data.Nat.Notation
import Mathlib.Logic.Function.Basic
import Mathlib.Tactic.Common

/-!
# The cached connection and channel

The module `queue/connection.ts` of either program: `getChannel`, its listeners and
`closeConnection`, over the connections it has opened, each with its channel. What is awaited is
replied to in one step and resumed in another, so that anything may happen at an await, also
between the reply and the code after it. An event of a connection or channel that was lost is
delivered later.
-/

namespace DeadLetter

/-! ## The topology -/

def exchangeName : String := "deadletter.jobs.exchange"
def queueName : String := "deadletter.jobs.queue"
def routingKey : String := "job.created"
def failuresExchangeName : String := "deadletter.jobs.failures.exchange"
def retryQueueName : String := "deadletter.jobs.retry.queue"
def retryRoutingKey : String := "job.retry"
def dlqQueueName : String := "deadletter.jobs.dlq"
def dlqRoutingKey : String := "job.dead_letter"

/-- A durable part of the topology. A queue may dead-letter to an exchange, with a routing key. -/
inductive Assertion
  | assertExchange (exchange : String)
  | assertQueue (queue : String) (deadLetter : Option (String × String))
  | bindQueue (queue exchange routingKey : String)
  deriving DecidableEq, Repr

def mainTopology : List Assertion :=
  [.assertExchange exchangeName, .assertQueue queueName none,
    .bindQueue queueName exchangeName routingKey]

def workerTopology : List Assertion :=
  mainTopology ++ [.assertExchange failuresExchangeName,
    .assertQueue retryQueueName (some (exchangeName, routingKey)),
    .bindQueue retryQueueName failuresExchangeName retryRoutingKey, .assertQueue dlqQueueName none,
    .bindQueue dlqQueueName failuresExchangeName dlqRoutingKey]

/-! ## The module -/

inductive Reason
  | connectionError | connectionClosed | channelError | channelClosed
  deriving DecidableEq, Repr

/-- A connection that was opened, and its channel. -/
structure Pair where
  connectionOpen : Bool := false
  channelOpen : Bool := false
  listening : Bool := false
  deriving DecidableEq, Repr

def Pair.isOpen (p : Pair) : Bool := p.connectionOpen && p.channelOpen

/-- What a call of `getChannel` that found no channel awaits, or has the reply to. -/
inductive Opening
  | connect
  | connected (n : ℕ)
  | createChannel (n : ℕ)
  | created (n : ℕ)
  | assert (n : ℕ) (a : Assertion) (rest : List Assertion)
  | asserted (n : ℕ) (rest : List Assertion)
  deriving DecidableEq, Repr

/-- What a call of `closeConnection` awaits, or has the reply to: it closes what is cached, if
anything is. -/
inductive Closing
  | channel (n : Option ℕ)
  | channelClosed
  | connection (n : Option ℕ)
  | connectionClosed
  deriving DecidableEq, Repr

/-- The module's variables, its connections by number, their undelivered events, and the calls in
progress, by caller. -/
structure Link (κ : Type) where
  connection : Option ℕ := none
  channel : Option ℕ := none
  closingIntentionally : Bool := false
  opened : ℕ := 0
  pairs : ℕ → Pair := fun _ => {}
  events : List (ℕ × Reason) := []
  calls : κ → Option Opening := fun _ => none
  closes : ℕ → Option Closing := fun _ => none

inductive LinkAction (κ : Type)
  | getChannel (c : κ)
  | reply (c : κ) (ok : Bool)
  | resume (c : κ)
  /-- The channel of connection `n` is lost, or the whole connection, with these events. -/
  | lost (n : ℕ) (connection : Bool) (reasons : List Reason)
  | deliver (n : ℕ) (reason : Reason)
  | closeConnection (j : ℕ)
  | closeReply (j : ℕ) (ok : Bool)
  | closeResume (j : ℕ)
  deriving DecidableEq, Repr

/-- What the rest of the program sees of a step: a call's promise, or the `invalidated` event. -/
inductive LinkOutput (κ : Type)
  | nothing
  | resolved (c : κ) (n : ℕ)
  | rejected (c : κ)
  | invalidated
  deriving DecidableEq, Repr

namespace Link

variable {κ : Type} [DecidableEq κ]

def setCall (s : Link κ) (c : κ) (o : Option Opening) : Link κ :=
  { s with calls := Function.update s.calls c o }

def setPair (s : Link κ) (n : ℕ) (f : Pair → Pair) : Link κ :=
  { s with pairs := Function.update s.pairs n (f (s.pairs n)) }

def getChannel (s : Link κ) (c : κ) : Option (Link κ × LinkOutput κ) :=
  match s.calls c, s.channel with
  | some _, _ => none
  | none, some n => some (s, .resolved c n)
  | none, none =>
    some ({ s with closingIntentionally := false }.setCall c (some .connect), .nothing)

def reply (s : Link κ) (c : κ) (ok : Bool) : Option (Link κ × LinkOutput κ) :=
  match s.calls c, ok with
  | some (.connected _), _ | some (.created _), _ | some (.asserted _ _), _ | none, _ => none
  | some _, false => some (s.setCall c none, .rejected c)
  | some .connect, true => some
    (({ s with opened := s.opened + 1 }.setPair s.opened fun p => { p with connectionOpen := true })
      |>.setCall c (some (.connected s.opened)), .nothing)
  | some (.createChannel n), true =>
    if (s.pairs n).connectionOpen then
      some ((s.setPair n fun p => { p with channelOpen := true }).setCall c
        (some (.created n)), .nothing)
    else none
  | some (.assert n _ rest), true =>
    if (s.pairs n).isOpen then some (s.setCall c (some (.asserted n rest)), .nothing) else none

/-- The call goes on to its next assertion, or caches its connection and returns. -/
def proceed (s : Link κ) (c : κ) (n : ℕ) : List Assertion → Link κ × LinkOutput κ
  | a :: rest => (s.setCall c (some (.assert n a rest)), .nothing)
  | [] => ({ s with connection := some n, channel := some n }.setCall c none, .resolved c n)

def resume (topology : List Assertion) (s : Link κ) (c : κ) : Option (Link κ × LinkOutput κ) :=
  match s.calls c with
  | some (.connected n) => some (s.setCall c (some (.createChannel n)), .nothing)
  | some (.created n) =>
    some ((s.setPair n fun p => { p with listening := true }).proceed c n topology)
  | some (.asserted n rest) => some (s.proceed c n rest)
  | _ => none

def lost (s : Link κ) (n : ℕ) (connection : Bool) (reasons : List Reason) :
    Option (Link κ × LinkOutput κ) :=
  if reasons ≠ [] ∧ (if connection then (s.pairs n).connectionOpen else (s.pairs n).channelOpen)
  then some ({ s with events := s.events ++ reasons.map fun r => (n, r) }.setPair n fun p =>
    { p with connectionOpen := p.connectionOpen && !connection, channelOpen := false }, .nothing)
  else none

/-- `invalidate`, as connection `n` calls it. -/
def invalidate (s : Link κ) (n : ℕ) : Link κ × LinkOutput κ :=
  if s.connection ≠ some n ∧ s.channel ≠ some n then (s, .nothing)
  else if s.closingIntentionally then (s, .nothing)
  else ({ s with
    connection := if s.connection = some n then none else s.connection
    channel := if s.channel = some n then none else s.channel }, .invalidated)

def deliver (s : Link κ) (n : ℕ) (r : Reason) : Option (Link κ × LinkOutput κ) :=
  if (n, r) ∈ s.events then
    let s := { s with events := s.events.erase (n, r) }
    -- an error that nobody listens for yet would end the process; here the run goes on without it
    some (if (s.pairs n).listening then s.invalidate n else (s, .nothing))
  else none

def setClose (s : Link κ) (j : ℕ) (o : Option Closing) : Link κ :=
  { s with closes := Function.update s.closes j o }

def closeConnection (s : Link κ) (j : ℕ) : Option (Link κ × LinkOutput κ) :=
  match s.closes j with
  | some _ => none
  | none => some
    ({ s with closingIntentionally := true }.setClose j (some (.channel s.channel)), .nothing)

/-- The reply to a `close()`; there is none to wait for where nothing is cached. -/
def closeReply (s : Link κ) (j : ℕ) (ok : Bool) : Option (Link κ × LinkOutput κ) :=
  match s.closes j, ok with
  | some (.channel none), _ => some (s.setClose j (some .channelClosed), .nothing)
  | some (.connection none), _ => some (s.setClose j (some .connectionClosed), .nothing)
  | some (.channel (some _)), false | some (.connection (some _)), false =>
    some (s.setClose j none, .nothing)
  | some (.channel (some n)), true =>
    (s.lost n false [.channelClosed]).map fun (s, o) => (s.setClose j (some .channelClosed), o)
  | some (.connection (some n)), true =>
    (s.lost n true [.connectionClosed]).map fun (s, o) =>
      (s.setClose j (some .connectionClosed), o)
  | _, _ => none

def closeResume (s : Link κ) (j : ℕ) : Option (Link κ × LinkOutput κ) :=
  match s.closes j with
  | some .channelClosed => some (s.setClose j (some (.connection s.connection)), .nothing)
  | some .connectionClosed =>
    some ({ s with connection := none, channel := none }.setClose j none, .nothing)
  | _ => none

def step (topology : List Assertion) (s : Link κ) : LinkAction κ → Option (Link κ × LinkOutput κ)
  | .getChannel c => s.getChannel c
  | .reply c ok => s.reply c ok
  | .resume c => s.resume topology c
  | .lost n connection reasons => s.lost n connection reasons
  | .deliver n r => s.deliver n r
  | .closeConnection j => s.closeConnection j
  | .closeReply j ok => s.closeReply j ok
  | .closeResume j => s.closeResume j

/-- The state a step leads to. -/
def next (topology : List Assertion) (s : Link κ) (a : LinkAction κ) : Option (Link κ) :=
  (s.step topology a).map (·.1)

/-- Connection `n` is open, or an event of it is to be delivered. -/
def Told (s : Link κ) (n : ℕ) : Prop := (s.pairs n).isOpen = true ∨ n ∈ s.events.map (·.1)

omit [DecidableEq κ] in
instance (s : Link κ) (n : ℕ) : Decidable (s.Told n) := inferInstanceAs (Decidable (_ ∨ _))

end Link

end DeadLetter
