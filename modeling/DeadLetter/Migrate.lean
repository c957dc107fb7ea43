import Mathlib.Data.Fin.Basic
import Mathlib.Data.List.Sort
import Mathlib.Data.Nat.Notation
import Mathlib.Logic.Function.Basic
import Mathlib.Order.Fin.Basic
import Mathlib.Data.List.Lex
import DeadLetter.Transition

/-!
# The migration runner

`scripts/migrate.ts`: any number of runs over one database, each in a session of its own. A run
takes the advisory lock, reads which files the ledger has, and applies each of the others in a
transaction of its own with its ledger row. What a file's SQL does is not looked at: a transaction
holds the names of the files whose SQL it ran and of those it inserted, and the database the ledger
that is committed.
-/

namespace DeadLetter

/-- A JavaScript string is its code units, and is compared by them. -/
abbrev Filename := List (Fin 65536)

def Filename.ofChars (cs : List Char) : Filename := cs.map fun c => Fin.ofNat 65536 c.toNat

/-- `name.endsWith(".sql")`. -/
def endsWithSql (name : Filename) : Bool := [46, 115, 113, 108] <:+ name

/-- What `readdirSync` returns: no two entries of a directory have one name. -/
structure Directory where
  names : List Filename
  nodup : names.Nodup

def Directory.filenames (dir : Directory) : List Filename :=
  (dir.names.filter endsWithSql).insertionSort (· ≤ ·)

/-- A transaction's own view: the files whose SQL has run in it, and the rows it has inserted. -/
structure MigrationTx where
  sql : List Filename := []
  inserted : List Filename := []
  deriving DecidableEq, Repr

inductive FileStep
  | readFile | begin | sql | insert | commit
  deriving DecidableEq, Repr

/-- What a run awaits. -/
inductive MigratePhase
  | connect
  | lock
  | createLedger
  | select
  | apply (st : FileStep) (filename : Filename) (rest : List Filename)
  | rollback
  | unlock (exitCode : ℕ)
  | endClient (exitCode : ℕ)
  | done (exitCode : ℕ)
  | crashed
  deriving DecidableEq, Repr

def MigratePhase.over : MigratePhase → Bool
  | .done _ | .crashed => true
  | _ => false

structure MigrateRun where
  filenames : List Filename
  pending : List Filename := []
  phase : MigratePhase := .connect
  tx : Option MigrationTx := none
  deriving DecidableEq, Repr

/-- What a run's await comes to: it returns, it throws, or the process dies in it. The statement
may have been executed in any case. -/
inductive Awaited
  | ok
  | threw (executed : Bool)
  | died (executed : Bool)
  deriving DecidableEq, Repr

def Awaited.executed : Awaited → Bool
  | .ok => true
  | .threw b | .died b => b

/-- The rows of `schema_migrations`, if the table is there, and the session that has the lock. -/
structure MigrationDb where
  ledger : Option (List Filename)
  lock : Option ℕ
  deriving DecidableEq, Repr

namespace MigrationDb

def alreadyApplied (db : MigrationDb) : List Filename := db.ledger.getD []

def commit (db : MigrationDb) (tx : MigrationTx) : MigrationDb :=
  { db with ledger := db.ledger.map (· ++ tx.inserted) }

def release (db : MigrationDb) (x : ℕ) : MigrationDb :=
  { db with lock := if db.lock = some x then none else db.lock }

end MigrationDb

namespace MigrateRun

/-- What the statement a run awaits does, where it does not wait or fail. -/
def execute (x : ℕ) (db : MigrationDb) (run : MigrateRun) :
    Option (MigrationDb × Option MigrationTx) :=
  match run.phase with
  | .lock => if db.lock = none then some ({ db with lock := some x }, run.tx) else none
  | .createLedger => some ({ db with ledger := some db.alreadyApplied }, run.tx)
  | .select => if db.ledger = none then none else some (db, run.tx)
  | .apply .begin _ _ => some (db, some {})
  | .apply .sql filename _ =>
    some (db, run.tx.map fun tx => { tx with sql := tx.sql ++ [filename] })
  | .apply .insert filename _ =>
    if filename ∈ db.alreadyApplied then none
    else some (db, run.tx.map fun tx => { tx with inserted := tx.inserted ++ [filename] })
  | .apply .commit _ _ => some (db.commit (run.tx.getD {}), none)
  | .rollback => some (db, none)
  | .unlock _ => some (db.release x, run.tx)
  | _ => some (db, run.tx)

def nextFile : List Filename → MigratePhase
  | [] => .unlock 0
  | filename :: rest => .apply .readFile filename rest

/-- The files that the ledger does not have. -/
def pendingOf (db : MigrationDb) (filenames : List Filename) : List Filename :=
  filenames.filter (· ∉ db.alreadyApplied)

/-- Where a run goes when what it awaits returns. -/
def returned (db : MigrationDb) (run : MigrateRun) : MigratePhase :=
  match run.phase with
  | .connect => .lock
  | .lock => .createLedger
  | .createLedger => .select
  | .select => nextFile (pendingOf db run.filenames)
  | .apply .readFile filename rest => .apply .begin filename rest
  | .apply .begin filename rest => .apply .sql filename rest
  | .apply .sql filename rest => .apply .insert filename rest
  | .apply .insert filename rest => .apply .commit filename rest
  | .apply .commit _ rest => nextFile rest
  | .rollback => .unlock 1
  | .unlock exitCode => .endClient exitCode
  | .endClient exitCode => .done exitCode
  | phase => phase

/-- Where it goes when that throws. Only a transaction's statements are in the inner `try`. -/
def threw (run : MigrateRun) : MigratePhase :=
  match run.phase with
  | .connect => .done 1
  | .lock | .createLedger | .select | .apply .readFile _ _ | .rollback => .unlock 1
  | .apply _ _ _ => .rollback
  | .unlock exitCode => .endClient exitCode
  | .endClient _ => .done 1
  | phase => phase

def after (db : MigrationDb) (run : MigrateRun) : Awaited → MigratePhase
  | .ok => run.returned db
  | .threw _ => run.threw
  | .died _ => .crashed

/-- A run goes on, its session ending where it does. -/
def go (x : ℕ) (db : MigrationDb) (run : MigrateRun) (tx : Option MigrationTx) (a : Awaited) :
    MigrationDb × MigrateRun :=
  let phase := run.after db a
  let pending := if run.phase = .select ∧ a = .ok then pendingOf db run.filenames else run.pending
  if phase.over then (db.release x, { run with pending, phase, tx := none })
  else (db, { run with pending, phase, tx })

def step (x : ℕ) (db : MigrationDb) (run : MigrateRun) (a : Awaited) :
    Option (MigrationDb × MigrateRun) :=
  if run.phase.over then none
  else if a.executed then (run.execute x db).map fun (db, tx) => run.go x db tx a
  else some (run.go x db run.tx a)

/-- The files whose SQL is committed, if the statement that the run awaits is executed. -/
def commits (run : MigrateRun) : List Filename :=
  match run.phase with
  | .apply .commit _ _ => (run.tx.getD {}).sql
  | _ => []

end MigrateRun

structure Migrations where
  db : MigrationDb
  runs : ℕ → Option MigrateRun

inductive MigrateAction
  /-- Run `x` starts, and reads the directory or fails to. -/
  | start (x : ℕ) (dir : Option Directory)
  | await (x : ℕ) (a : Awaited)

inductive Migrated
  | committed (x : ℕ) (filename : Filename)
  | failed (x : ℕ)
  deriving DecidableEq, Repr

namespace Migrations

def init : Migrations := { db := { ledger := none, lock := none }, runs := fun _ => none }

def started : Option Directory → MigrateRun
  | none => { filenames := [], phase := .done 1 }
  | some dir =>
    { filenames := dir.filenames, phase := if dir.filenames = [] then .done 0 else .connect }

def step (s : Migrations) : MigrateAction → Option Migrations
  | .start x dir =>
    match s.runs x with
    | some _ => none
    | none => some { s with runs := Function.update s.runs x (some (started dir)) }
  | .await x a => (s.runs x).bind fun run => (run.step x s.db a).map fun (db, run) =>
    { db, runs := Function.update s.runs x (some run) }

def shown (s : Migrations) (a : MigrateAction) (_ : Migrations) : List Migrated :=
  match a with
  | .start x dir => if dir.isNone then [.failed x] else []
  | .await x a =>
    (if a.executed then ((s.runs x).elim [] MigrateRun.commits).map (.committed x) else [])
      ++ if a = .ok then [] else [.failed x]

def committedBy (p : ℕ → Bool) (l : List Migrated) : List Filename :=
  l.filterMap fun
    | .committed x filename => if p x then some filename else none
    | .failed _ => none

/-- The files whose SQL has been committed, in order. -/
def committed (l : List Migrated) : List Filename := committedBy (fun _ => true) l

def commitsOf (x : ℕ) (l : List Migrated) : List Filename := committedBy (· = x) l

end Migrations

end DeadLetter
