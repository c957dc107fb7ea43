import DeadLetter.Transaction
import DeadLetter.World

/-!
# The system, statement by statement

The API's transactions of `Server` on the database of `World`, with its queues and its workers. The
API commits only in its calls, statement by statement; and a worker's statement waits where it
would change a row that a call has locked.
-/

namespace DeadLetter

structure System where
  world : World
  txs : ℕ → Option Tx
  locks : Uuid → Option ℕ

inductive SystemAction
  | call (x : ℕ) (c : ApiCall)
  | statement (x : ℕ) (ok : Bool) (uuid : Uuid)
  | crash (x : ℕ)
  /-- Time passes, or a dispatcher, the broker or a worker takes a step. -/
  | world (a : WorldAction)

namespace System

def init : System := { world := .init, txs := fun _ => none, locks := fun _ => none }

def server (s : System) : Server :=
  { now := s.world.now, db := s.world.db, txs := s.txs, locks := s.locks }

def serve (s : System) (u : Server) : System :=
  { world := { s.world with db := u.db }, txs := u.txs, locks := u.locks }

def waits (s : System) : WorldAction → Bool
  | .work w a => ((s.world.workers w).call s.world.now a).any fun c =>
    c.succeeds s.world.db.jobs && (s.locks c.id).isSome
  | _ => false

def step (s : System) : SystemAction → Option System
  | .call x c => (s.server.step (.call x c)).map s.serve
  | .statement x ok uuid => (s.server.step (.statement x ok uuid)).map s.serve
  | .crash x => (s.server.step (.crash x)).map s.serve
  | .world (.commit _ _) => none
  | .world a => if s.waits a then none else (s.world.step a).map fun world => { s with world }

end System

end DeadLetter
