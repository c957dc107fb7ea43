import DeadLetter.Db

/-!
# The API's transactions

`createJob` and `claimReplay` are callbacks of `withTransaction`: `BEGIN`, the change of the job,
the `INSERT` of its event and `COMMIT` are statements of their own, of which any may fail. What a
transaction has written is in its phase, and in the tables only when it commits. `now()` is the
time of its `BEGIN`. A row it has updated stays locked until it ends: a statement that would
change that row waits, and so finds it as the end left it.
-/

namespace DeadLetter

inductive ApiCall
  | createJob (type : String) (payload : Payload)
  | claimReplay (id : Uuid)
  deriving DecidableEq, Repr

inductive ApiResult
  | rejected
  | returned (job : Option Job)
  deriving DecidableEq, Repr

/-- What a call awaits, with what its transaction has written: the job's row, and the event. -/
inductive TxPhase
  | connect
  | begin
  | change (begunAt : ℤ)
  | insertEvent (begunAt : ℤ) (job : Job)
  | commit (written : Option (Job × OutboxEvent))
  | rollback
  | done (result : ApiResult)
  | crashed
  deriving DecidableEq, Repr

def TxPhase.over : TxPhase → Bool
  | .done _ | .crashed => true
  | _ => false

structure Tx where
  call : ApiCall
  phase : TxPhase
  deriving DecidableEq, Repr

/-- The server: the committed tables, the calls by number, and who holds the lock of a job's
row. -/
structure Server where
  now : ℤ
  db : Db
  txs : ℕ → Option Tx
  locks : Uuid → Option ℕ

inductive ServerAction
  | clock (t : ℤ)
  | call (x : ℕ) (c : ApiCall)
  /-- What call `x` awaits succeeds or fails. `uuid` is what `gen_random_uuid()` gives. -/
  | statement (x : ℕ) (ok : Bool) (uuid : Uuid)
  | crash (x : ℕ)
  | worker (c : Call)
  | dispatch (r : ℕ) (a : OutboxAction)

namespace Server

def init : Server := { now := 0, db := Db.init, txs := fun _ => none, locks := fun _ => none }

def setPhase (s : Server) (x : ℕ) (tx : Tx) (phase : TxPhase) : Server :=
  { s with txs := Function.update s.txs x (some { tx with phase }) }

def release (s : Server) (x : ℕ) : Server :=
  { s with locks := fun k => if s.locks k = some x then none else s.locks k }

/-- The tables with what a transaction wrote, unless a key is taken. -/
def install (db : Db) (call : ApiCall) (job : Job) (event : OutboxEvent) : Option Db :=
  let jobs := match call with
    | .createJob _ _ => db.jobs.insert job
    | .claimReplay _ => some (db.jobs.replace job)
  match jobs, db.outbox.events.insert event with
  | some jobs, some events => some { jobs, outbox := { db.outbox with events } }
  | _, _ => none

def change (s : Server) (x : ℕ) (tx : Tx) (begunAt : ℤ) (uuid : Uuid) : Option Server :=
  match tx.call with
  | .createJob type payload =>
    match s.db.jobs.get uuid with
    | some _ => some (s.setPhase x tx .rollback)
    | none => some (s.setPhase x tx (.insertEvent begunAt (newJob begunAt uuid type payload)))
  | .claimReplay id =>
    match ((claimReplayUpdate begunAt).run s.db.jobs id).2, s.locks id with
    | none, _ => some (s.setPhase x tx (.commit none))
    | some _, some _ => none
    | some job, none => some { s.setPhase x tx (.insertEvent begunAt job) with
      locks := Function.update s.locks id (some x) }

def statement (s : Server) (x : ℕ) (tx : Tx) (ok : Bool) (uuid : Uuid) : Option Server :=
  match tx.phase with
  | .connect => some (s.setPhase x tx (if ok then .begin else .done .rejected))
  | .begin => some (s.setPhase x tx (if ok then .change s.now else .rollback))
  | .change begunAt =>
    if ok then s.change x tx begunAt uuid else some (s.setPhase x tx .rollback)
  | .insertEvent begunAt job =>
    some (s.setPhase x tx (if ok && (s.db.outbox.events.get uuid).isNone
      then .commit (some (job, newOutboxEvent begunAt uuid job.id)) else .rollback))
  | .commit none =>
    some ((s.setPhase x tx (if ok then .done (.returned none) else .rollback)).release x)
  | .commit (some (job, event)) =>
    match install s.db tx.call job event with
    | some db =>
      if ok then some (Server.release { s.setPhase x tx (.done (.returned (some job))) with db } x)
      else some (s.setPhase x tx .rollback)
    | none => some (s.setPhase x tx .rollback)
  | .rollback => some ((s.setPhase x tx (.done .rejected)).release x)
  | .done _ => none
  | .crashed => none

def step (s : Server) : ServerAction → Option Server
  | .clock t => some { s with now := t }
  | .call x c =>
    match s.txs x with
    | some _ => none
    | none => some { s with txs := Function.update s.txs x (some { call := c, phase := .connect }) }
  | .statement x ok uuid => (s.txs x).bind fun tx => s.statement x tx ok uuid
  | .crash x =>
    match s.txs x with
    | some tx => if tx.phase.over then none else some ((s.setPhase x tx .crashed).release x)
    | none => none
  | .worker c =>
    -- a statement that would change a locked row waits
    if c.succeeds s.db.jobs && (s.locks c.id).isSome then none
    else (s.db.step (.call c)).map fun db => { s with db }
  | .dispatch r a => (s.db.step (.dispatch s.now r a)).map fun db => { s with db }

structure Effect where
  tx : ℕ
  before : Db
  after : Db

def shown (s : Server) (a : ServerAction) (t : Server) : List Effect :=
  match a with
  | .statement x _ _ | .crash x => [{ tx := x, before := s.db, after := t.db }]
  | _ => []

end Server

end DeadLetter
