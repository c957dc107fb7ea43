import Mathlib.Algebra.Group.Nat.Defs
import DeadLetter.Json

/-!
# The dashboard's event socket

The effect of `ws/useJobEvents.ts`, from its mount to its unmount, with the sockets and the timers
that it has the browser make. A socket that is not closed may fire any event but one after its
close event, which closes it.
-/

namespace DeadLetter

inductive ConnectionState
  | connecting | opened | closed
  deriving DecidableEq, Repr

inductive ReadyState
  | connecting | opened | closing | closed
  deriving DecidableEq, Repr

def ReadyState.close : ReadyState → ReadyState
  | .connecting | .opened => .closing
  | r => r

structure Timer where
  id : ℕ
  delayMs : ℕ
  deriving DecidableEq, Repr

/-- The hook's state, its ref, the effect's variables, and the browser's sockets and pending
timers. -/
structure JobEvents where
  lastEvent : Option Json := none
  connectionState : ConnectionState := .connecting
  reconnectAttempt : ℕ := 0
  ws : Option ℕ := none
  reconnectTimer : Option ℕ := none
  cancelled : Bool := false
  sockets : List ReadyState := []
  timers : List Timer := []
  nextTimer : ℕ := 0

inductive JobEventsAction
  | socketOpen (i : ℕ)
  | socketMessage (i : ℕ) (data : CodeUnits)
  | socketError (i : ℕ)
  | socketClose (i : ℕ)
  | timer (id : ℕ)
  | unmount
  deriving DecidableEq, Repr

inductive JobEventsEffect
  | created
  | opened
  | waits (delayMs : ℕ)
  | unmounted
  deriving DecidableEq, Repr

namespace JobEvents

/-- A socket whose close event is to come. -/
def isLive (s : JobEvents) (i : ℕ) : Bool := s.sockets[i]?.any (· ≠ .closed)

def live (s : JobEvents) : ℕ := s.sockets.countP (· ≠ .closed)

/-- `ws?.close()`. -/
def closeWs (s : JobEvents) : JobEvents :=
  match s.ws with
  | some i => { s with sockets := s.sockets.modify i ReadyState.close }
  | none => s

def connect (s : JobEvents) : JobEvents × List JobEventsEffect :=
  if s.cancelled then (s, [])
  else
    ({ s with
      connectionState := .connecting
      ws := some s.sockets.length
      sockets := s.sockets ++ [.connecting] }, [.created])

def onopen (s : JobEvents) : JobEvents × List JobEventsEffect :=
  ({ s with reconnectAttempt := 0, connectionState := .opened }, [.opened])

def typeKey : CodeUnits := ascii ['t', 'y', 'p', 'e']

def jobUpdated : CodeUnits := ascii ['j', 'o', 'b', '.', 'u', 'p', 'd', 'a', 't', 'e', 'd']

def onmessage (s : JobEvents) (data : CodeUnits) : JobEvents :=
  match Json.parse data with
  | none => s
  | some parsed =>
    match parsed.get typeKey with
    | some (.string type) => if type = jobUpdated then { s with lastEvent := some parsed } else s
    | _ => s

def delayMs (reconnectAttempt : ℕ) : ℕ := min (1000 * 2 ^ reconnectAttempt) 15000

def onclose (s : JobEvents) : JobEvents × List JobEventsEffect :=
  let s := { s with connectionState := .closed }
  if s.cancelled then (s, [])
  else
    let delay := delayMs s.reconnectAttempt
    ({ s with
      reconnectAttempt := s.reconnectAttempt + 1
      reconnectTimer := some s.nextTimer
      timers := s.timers ++ [⟨s.nextTimer, delay⟩]
      nextTimer := s.nextTimer + 1 }, [.waits delay])

/-- `clearTimeout`; a timer that has fired is none of the pending ones. -/
def clearTimeout (s : JobEvents) (id : ℕ) : JobEvents :=
  { s with timers := s.timers.filter (·.id ≠ id) }

def cleanup (s : JobEvents) : JobEvents × List JobEventsEffect :=
  let s := { s with cancelled := true }
  let s := match s.reconnectTimer with
    | some id => s.clearTimeout id
    | none => s
  (s.closeWs, [.unmounted])

def handle (s : JobEvents) : JobEventsAction → Option (JobEvents × List JobEventsEffect)
  | .socketOpen i =>
    if s.isLive i then
      some (onopen { s with
        sockets := s.sockets.modify i fun r => if r = .connecting then .opened else r })
    else none
  | .socketMessage i data => if s.isLive i then some (s.onmessage data, []) else none
  | .socketError i => if s.isLive i then some (s.closeWs, []) else none
  | .socketClose i =>
    if s.isLive i then some (onclose { s with sockets := s.sockets.set i .closed }) else none
  | .timer id =>
    if id ∈ s.timers.map (·.id) then some (connect (s.clearTimeout id)) else none
  | .unmount => if s.cancelled then none else some s.cleanup

def step (s : JobEvents) (a : JobEventsAction) : Option JobEvents := (s.handle a).map (·.1)

def shown (s : JobEvents) (a : JobEventsAction) (_ : JobEvents) : List JobEventsEffect :=
  ((s.handle a).map (·.2)).getD []

/-- The effect has run. -/
def mounted : JobEvents := (connect {}).1

/-- The connections that failed or were lost since one last opened. -/
def failures (l : List JobEventsEffect) : ℕ :=
  l.foldl (fun n e => match e with
    | .opened => 0
    | .waits _ => n + 1
    | _ => n) 0

end JobEvents

end DeadLetter
