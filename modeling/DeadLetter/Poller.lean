import Mathlib.Data.List.Sort
import Mathlib.Logic.Function.Basic
import DeadLetter.Calls

/-!
# The change poller

`startChangePoller` over the jobs table. Each write is a transaction: its `now()` is the clock as
it began, and its row is there for others when it commits. A tick of the timer sends its query
with the cursor of that moment, the query reads the table at another, and its rows come back at a
third, when each is broadcast and the cursor goes to the last of them; `setInterval` does not wait
for one tick to end before the next. A `TIMESTAMPTZ` is read as a `Date`, in whole milliseconds.
-/

namespace DeadLetter

open Transition

/-- What pg makes of a `TIMESTAMPTZ`, in microseconds. -/
def toDate (t : ℤ) : ℤ := t / 1000

/-- The timestamp a `Date` is sent back as. -/
def toTimestamp (date : ℤ) : ℤ := date * 1000

/-- A row of the query, with the column's own `updated_at`. -/
structure JobChange where
  id : Uuid
  status : JobStatus
  updatedAt : ℤ
  deriving DecidableEq, Repr

structure JobUpdatedEvent where
  jobId : Uuid
  status : JobStatus
  updatedAt : ℤ
  deriving DecidableEq, Repr

def Job.change (j : Job) : JobChange := { id := j.id, status := j.status, updatedAt := j.updatedAt }

def JobChange.event (c : JobChange) : JobUpdatedEvent :=
  { jobId := c.id, status := c.status, updatedAt := toDate c.updatedAt }

def getJobChangesSince (jobs : Jobs) (since : ℤ) : List JobChange :=
  ((jobs.rows.filter fun j => toTimestamp since < j.updatedAt).map Job.change).insertionSort
    fun a b => a.updatedAt ≤ b.updatedAt

/-- The cursor after a tick that read these rows. -/
def advance (cursor : ℤ) (changes : List JobChange) : ℤ :=
  match changes.getLast? with
  | some last => toDate last.updatedAt
  | none => cursor

/-- What a tick awaits: its query, which has not read the table yet, or has. -/
inductive Tick
  | sent (since : ℤ)
  | read (changes : List JobChange)
  deriving DecidableEq, Repr

structure Poller where
  now : ℤ
  jobs : Jobs
  writers : ℕ → Option ℤ
  startup : Option ℤ
  cursor : ℤ
  ticks : ℕ → Option Tick

inductive PollerAction
  | clock (now : ℤ)
  | begin (x : ℕ)
  | commit (x : ℕ) (id : Uuid) (op : JobOp)
  | rollback (x : ℕ)
  | getStartupCursor
  | tick (i : ℕ)
  | query (i : ℕ)
  | finish (i : ℕ)
  | rejected (i : ℕ)
  | threw (i : ℕ) (sent : ℕ)

namespace Poller

def init : Poller where
  now := 0
  jobs := Table.empty
  writers := fun _ => none
  startup := none
  cursor := 0
  ticks := fun _ => none

def setWriter (s : Poller) (x : ℕ) (begunAt : Option ℤ) : Poller :=
  { s with writers := Function.update s.writers x begunAt }

def setTick (s : Poller) (i : ℕ) (tick : Option Tick) : Poller :=
  { s with ticks := Function.update s.ticks i tick }

def step (s : Poller) : PollerAction → Option Poller
  | .clock now => some { s with now }
  | .begin x => match s.writers x with
    | none => some (s.setWriter x (some s.now))
    | some _ => none
  | .commit x id op => match s.writers x with
    | some begunAt =>
      some { s.setWriter x none with jobs := (Call.run s.jobs ⟨id, begunAt, op⟩).1 }
    | none => none
  | .rollback x => match s.writers x with
    | some _ => some (s.setWriter x none)
    | none => none
  | .getStartupCursor => match s.startup with
    | none => some { s with startup := some (toDate s.now), cursor := toDate s.now }
    | some _ => none
  | .tick i => match s.startup, s.ticks i with
    | some _, none => some (s.setTick i (some (.sent s.cursor)))
    | _, _ => none
  | .query i => match s.ticks i with
    | some (.sent since) => some (s.setTick i (some (.read (getJobChangesSince s.jobs since))))
    | _ => none
  | .finish i => match s.ticks i with
    | some (.read changes) => some { s.setTick i none with cursor := advance s.cursor changes }
    | _ => none
  -- the cursor stays where a tick fails
  | .rejected i => match s.ticks i with
    | some _ => some (s.setTick i none)
    | none => none
  | .threw i sent => match s.ticks i with
    | some (.read changes) =>
      if sent < changes.length then some (s.setTick i none) else none
    | _ => none

/-- The rows broadcast, each as its `event`. -/
def broadcasts (s : Poller) (a : PollerAction) (_ : Poller) : List JobChange :=
  match a with
  | .finish i => match s.ticks i with
    | some (.read changes) => changes
    | _ => []
  | .threw i sent => match s.ticks i with
    | some (.read changes) => changes.take sent
    | _ => []
  | _ => []

def ends : PollerAction → Option ℕ
  | .finish i | .rejected i | .threw i _ => some i
  | _ => none

/-! ## Missing nothing -/

/-- A tick begins when the one before it has ended. -/
def OneAtATime (s : Poller) (a : PollerAction) (_ : Poller) : Prop :=
  match a with
  | .tick _ => ∀ i, s.ticks i = none
  | _ => True

/-- A write commits before a poll has gone past its `now()`: neither the cursor has, nor will it
with the rows that a tick has read. -/
def BeforePolls (s : Poller) (a : PollerAction) (_ : Poller) : Prop :=
  match a with
  | .commit x _ _ => ∀ begunAt ∈ s.writers x, ∀ startup ∈ s.startup,
    toTimestamp startup < begunAt → toTimestamp s.cursor < begunAt
      ∧ ∀ i changes, s.ticks i = some (.read changes) →
        toTimestamp (advance s.cursor changes) < begunAt
  | _ => True

/-- After a tick whose query ran with no writer in progress, every row it found later than the
startup cursor has been broadcast as it was. -/
def MissesNone (as : List PollerAction) : Prop :=
  ∀ l₁ i l₂ l₃ s t, as = l₁ ++ .query i :: (l₂ ++ .finish i :: l₃) →
    (∀ a ∈ l₂, ends a ≠ some i) → exec step init l₁ = some s → (∀ x, s.writers x = none) →
    exec step init (l₁ ++ .query i :: (l₂ ++ [.finish i])) = some t →
    ∀ j ∈ s.jobs, ∀ startup ∈ s.startup, toTimestamp startup < j.updatedAt →
      j.change ∈ trace step broadcasts init (l₁ ++ .query i :: (l₂ ++ [.finish i]))

/-! ## Repeating nothing -/

def throws : PollerAction → Bool
  | .threw _ _ => true
  | _ => false

/-- A query runs with no rows still to be broadcast by another tick, and finds only rows of a
later millisecond than the cursor's. -/
def Afresh (s : Poller) (a : PollerAction) (_ : Poller) : Prop :=
  match a with
  | .query i => (∀ k changes, s.ticks k = some (.read changes) → changes = [])
      ∧ ∀ since, s.ticks i = some (.sent since) → ∀ j ∈ s.jobs,
        toTimestamp since < j.updatedAt → s.cursor < toDate j.updatedAt
  | _ => True

def commits : PollerAction → Bool
  | .commit _ _ _ => true
  | _ => false

/-- No row version is broadcast twice; and once a tick has ended that read the table after the last
write, none is. -/
def RepeatsNone (as : List PollerAction) : Prop :=
  ((trace step broadcasts init as).map fun c => (c.id, c.updatedAt)).Nodup
    ∧ ∀ l₁ i l₂ l₃ s, as = l₁ ++ .query i :: (l₂ ++ .finish i :: l₃) →
      (∀ a ∈ l₂, ends a ≠ some i) → (∀ a ∈ l₂ ++ l₃, commits a = false) →
      exec step init (l₁ ++ .query i :: (l₂ ++ [.finish i])) = some s →
      trace step broadcasts s l₃ = []

end Poller

end DeadLetter
