import DeadLetter.System
import DeadLetter.Proofs.Serial
import DeadLetter.Proofs.World

/-!
# The system's transactions at once

Statement by statement, and however its calls overlap with each other and with the workers, the
system is `World`, where each transaction is one step: the commit. And all that `World` does, it
does, each commit by a call of its own.
-/

namespace DeadLetter

open Transition

def SystemAction.server : SystemAction → Option ServerAction
  | .call x c => some (.call x c)
  | .statement x ok uuid => some (.statement x ok uuid)
  | .crash x => some (.crash x)
  | .world _ => none

theorem Server.TxStep.now {s t : Server} {x : ℕ} {tx : Tx} (h : TxStep s x tx t) :
    t.now = s.now := by
  cases h <;> rfl

namespace System

variable {s t : System}

def commitOf : DbAction → Option WorldAction
  | .commit c eventId => some (.commit c eventId)
  | _ => none

/-- What a step is in `World`: the statement that commits a transaction is the commit. -/
def atOnce (s : System) (a : SystemAction) (t : System) : List WorldAction :=
  match a with
  | .world b => [b]
  | .statement x ok uuid =>
    (s.server.committed (.statement x ok uuid) t.server).filterMap fun c => commitOf c.2
  | _ => []

/-- A step of the system: it is one of a call, or of all else. -/
inductive SystemStep (s : System) : SystemAction → System → Prop
  | served {a : SystemAction} {b : ServerAction} {u : Server} (hb : a.server = some b)
      (hn : u.now = s.world.now) (h : s.server.step b = some u) : SystemStep s a (s.serve u)
  | moved {b : WorldAction} {world : World} (hc : ∀ c eventId, b ≠ .commit c eventId)
      (hw : s.waits b = false) (h : s.world.step b = some world) :
      SystemStep s (.world b) { s with world }

theorem now_of_served {a : SystemAction} {b : ServerAction} {u : Server} (hb : a.server = some b)
    (h : s.server.step b = some u) : u.now = s.world.now := by
  cases Server.step_cases h with
  | clock => cases a <;> simp [SystemAction.server] at hb
  | statement _ _ ht => exact ht.now
  | crash _ _ ht => exact ht.now
  | _ => rfl

theorem step_cases {a : SystemAction} (h : s.step a = some t) : SystemStep s a t := by
  have hserved : ∀ {b}, a.server = some b → (s.server.step b).map s.serve = some t →
      SystemStep s a t := by
    intro b hb h
    obtain ⟨u, hu, rfl⟩ := Option.map_eq_some_iff.1 h
    exact .served hb (now_of_served hb hu) hu
  cases a with
  | call x c => exact hserved rfl h
  | statement x ok uuid => exact hserved rfl h
  | crash x => exact hserved rfl h
  | world b =>
    have hcommit : ∀ c eventId, b ≠ .commit c eventId := by
      rintro c eventId rfl
      simp [step] at h
    have hb : (if s.waits b then none
        else (s.world.step b).map fun world => { s with world }) = some t := by
      cases b <;> first | exact h | exact absurd rfl (hcommit _ _)
    split_ifs at hb with hw
    obtain ⟨world, hworld, rfl⟩ := Option.map_eq_some_iff.1 hb
    exact .moved hcommit (by simpa using hw) hworld

theorem server_serve {u : Server} (hn : u.now = s.world.now) : (s.serve u).server = u := by
  cases u
  simp only at hn
  subst hn
  rfl

/-! ## In `Server` -/

/-- What the world does to the tables is a statement of a worker or a dispatcher. -/
theorem server_of_moved {b : WorldAction} {world : World} (hc : ∀ c eventId, b ≠ .commit c eventId)
    (hw : s.waits b = false) (h : s.world.step b = some world) :
    ∃ bs, exec Server.step s.server bs = some (server { s with world }) := by
  cases World.step_cases h with
  | passed => exact ⟨[.clock _], rfl⟩
  | committed => exact absurd rfl (hc _ _)
  | @dispatched r a outbox ho =>
    refine ⟨[.dispatch r a], exec_singleton.2 ?_⟩
    simp only [Server.step, Db.step, server, ho, Option.map_some]
  | @worked w a hd hs =>
    rcases hcall : (s.world.workers w).call s.world.now a with _ | c
    · exact ⟨[], rfl⟩
    · refine ⟨[.worker c], exec_singleton.2 ?_⟩
      simp only [waits, hcall, Option.any_some] at hw
      simp only [Server.step, server, hw, Bool.false_eq_true, if_false, Db.step,
        Worker.call_isApi hcall, Option.map_some]
      rfl
  | _ => exact ⟨[], rfl⟩

theorem server_of_step {a : SystemAction} (h : s.step a = some t) :
    ∃ bs, exec Server.step s.server bs = some t.server := by
  cases step_cases h with
  | @served a b u hb hn hu => exact ⟨[b], exec_singleton.2 (by rw [server_serve hn, hu])⟩
  | moved hc hw hworld => exact server_of_moved hc hw hworld

theorem exec_refines_server {as : List SystemAction} (h : exec step init as = some s) :
    ∃ bs, exec Server.step Server.init bs = some s.server :=
  exec_refines (I := fun _ => True) server (fun _ _ _ _ _ => trivial)
    (fun _ _ _ _ => server_of_step) trivial h

/-! ## In `World` -/

/-- What each call has written, it holds the right to write. -/
def Holds (s : System) : Prop := ∀ y tx, s.txs y = some tx → Server.Held s.world.db s.locks y tx

theorem Holds.step {a : SystemAction} (hH : s.Holds) (h : s.step a = some t) : t.Holds := by
  obtain ⟨bs, hbs⟩ := server_of_step h
  have hstep : ∀ (u : Server) b v, (∀ y tx, u.txs y = some tx → Server.Held u.db u.locks y tx) →
      u.step b = some v → ∀ y tx, v.txs y = some tx → Server.Held v.db v.locks y tx :=
    fun _ _ _ => Server.held_step
  have hs : ∀ y tx, s.server.txs y = some tx → Server.Held s.server.db s.server.locks y tx := hH
  exact exec_inv hstep hs hbs

theorem commit_of_statement {u v : Server} {x : ℕ} {ok : Bool} {uuid : Uuid}
    {c : Option ℕ × DbAction} (hc : c ∈ u.committed (.statement x ok uuid) v) :
    ∃ d eventId, c.2 = .commit d eventId := by
  simp only [Server.committed] at hc
  split at hc
  · split_ifs at hc
    · obtain rfl := List.mem_singleton.1 hc
      exact ⟨_, _, rfl⟩
    · simp at hc
  · simp at hc

theorem exec_commits : ∀ {l : List (Option ℕ × DbAction)} {w : World} {db : Db},
    (∀ c ∈ l, ∃ d eventId, c.2 = .commit d eventId) →
      exec Db.step w.db (l.map Prod.snd) = some db →
      exec World.step w (l.filterMap fun c => commitOf c.2) = some { w with db }
  | [], w, db, _, h => by
    obtain rfl := Option.some.inj h
    rfl
  | c :: l, w, db, hl, h => by
    obtain ⟨hc, hl⟩ := List.forall_mem_cons.1 hl
    obtain ⟨d, eventId, hd⟩ := hc
    rw [List.map_cons, hd] at h
    obtain ⟨db', hdb, h⟩ := exec_cons.1 h
    rw [List.filterMap_cons_some (by rw [hd, commitOf])]
    refine exec_cons.2 ⟨{ w with db := db' }, ?_, exec_commits (w := { w with db := db' }) hl h⟩
    simp only [World.step, hdb, Option.map_some]

theorem world_of_step {a : SystemAction} (hH : s.Holds) (h : s.step a = some t) :
    exec World.step s.world (s.atOnce a t) = some t.world := by
  cases step_cases h with
  | @served a b u hb hn hu =>
    have hdb := Server.committed_sound (s := s.server) hH hu
    cases a with
    | world => simp [SystemAction.server] at hb
    | statement x ok uuid =>
      obtain rfl := Option.some.inj hb
      unfold atOnce
      rw [server_serve hn]
      exact exec_commits (fun _ => commit_of_statement) hdb
    | _ =>
      obtain rfl := Option.some.inj hb
      exact congrArg (fun db => some { s.world with db }) (Option.some.inj hdb)
  | moved hc hw hworld => exact exec_singleton.2 hworld

/-! ## All of `World` -/

def callOf (c : Call) : ApiCall :=
  match c.op with
  | .createJob type payload => .createJob type payload
  | _ => .claimReplay c.id

/-- Call `x` from its beginning to its end. -/
def callThrough (x : ℕ) (c : Call) (eventId : Uuid) : List SystemAction :=
  [.call x (callOf c), .statement x true c.id, .statement x true c.id, .statement x true c.id,
    .statement x true eventId, .statement x true c.id]

end System

namespace Server

variable {s t : Server} {x : ℕ} {tx : Tx}

theorem step_statement {ok : Bool} {uuid : Uuid} (hx : s.txs x = some tx) :
    s.step (.statement x ok uuid) = s.statement x tx ok uuid := by
  simp only [step, hx, Option.bind_some]

theorem setPhase_setPhase {phase phase' : TxPhase} :
    (s.setPhase x tx phase).setPhase x { tx with phase } phase' = s.setPhase x tx phase' := by
  simp only [setPhase, Function.update_idem]

/-- The change of a call that can be made at once can be made by its statement. -/
theorem change_of_run {c : Call} {job : Job} {p : TxPhase} (hl : s.locks c.id = none)
    (ha : c.op.isApi = true) (hr : (c.run s.db.jobs).2 = some job) :
    ∃ locks, (∀ k, locks k = s.locks k ∨ locks k = some x)
      ∧ s.change x ⟨System.callOf c, p⟩ c.now c.id
        = some { s.setPhase x ⟨System.callOf c, p⟩ (.insertEvent c.now job) with locks } := by
  rcases c with ⟨id, now, op⟩
  cases op with
  | createJob type payload =>
    refine ⟨s.locks, fun _ => .inl rfl, ?_⟩
    rcases Call.run_createJob (c := ⟨id, now, .createJob type payload⟩) rfl s.db.jobs
      with ⟨jobs, hi, hrun⟩ | hrun <;> rw [hrun] at hr
    · obtain rfl := Option.some.inj hr
      have hget : s.db.jobs.get id = none := (Table.insert_eq_some.1 hi).1
      simp only [change, System.callOf, hget]
      rfl
    · simp at hr
  | claimReplay =>
    refine ⟨Function.update s.locks id (some x), fun k => ?_, ?_⟩
    · by_cases hk : k = id
      · exact .inr (by rw [hk, Function.update_self])
      · exact .inl (Function.update_of_ne hk _ _)
    · have hr' : ((claimReplayUpdate now).run s.db.jobs id).2 = some job := hr
      simp only [change, System.callOf, hr', hl]
  | _ => simp [JobOp.isApi] at ha

theorem install_of_commit {c : Call} {eventId : Uuid} {job : Job} {db : Db}
    (ha : c.op.isApi = true) (hc : s.db.commit c eventId = some db)
    (hr : (c.run s.db.jobs).2 = some job) :
    install s.db (System.callOf c) job (newOutboxEvent c.now eventId job.id) = some db := by
  obtain ⟨job', hr', hj, hruns, hins⟩ := Db.commit_eq_some hc
  obtain rfl : job = job' := Option.some.inj (hr.symm.trans hr')
  have hev : s.db.outbox.events.insert (newOutboxEvent c.now eventId job.id)
      = some db.outbox.events := hins
  have hdb : db = ⟨db.jobs, ⟨db.outbox.events, s.db.outbox.runs⟩⟩ := by rw [← hruns]
  rcases c with ⟨id, now, op⟩
  cases op with
  | createJob type payload =>
    rcases Call.run_createJob (c := ⟨id, now, .createJob type payload⟩) rfl s.db.jobs
      with ⟨jobs, hi, hrun⟩ | hrun <;> rw [hrun] at hr hj
    · obtain rfl := Option.some.inj hr
      simp only [install, System.callOf, hev, hi]
      rw [hdb, hj]
    · simp at hr
  | claimReplay =>
    obtain ⟨i, hi, hq, hs⟩ := Table.returningKey_eq_some.1 hr
    have hrep := Table.replace_eq_updateKey (claimReplayUpdate now).set_id hi hq
    rw [hs] at hrep
    simp only [install, System.callOf, hev]
    rw [hdb, hj, hrep]
    rfl
  | _ => simp [JobOp.isApi] at ha

theorem release_locked {locks : Uuid → Option ℕ} (hl : ∀ k, s.locks k = none)
    (hk : ∀ k, locks k = s.locks k ∨ locks k = some x) :
    release { s with locks } x = s := by
  have heq : (fun k => if locks k = some x then none else locks k) = s.locks := by
    funext k
    rw [hl k]
    rcases hk k with h | h
    · rw [h, hl k]
      rfl
    · exact if_pos h
  unfold release
  rw [heq]

theorem callOf_op {c : Call} (ha : c.op.isApi = true) : (System.callOf c).op = c.op := by
  rcases c with ⟨id, now, op⟩
  cases op <;> first | rfl | simp [JobOp.isApi] at ha

/-- A call that no other is in the way of does at once what its commit does. -/
theorem exec_callThrough {c : Call} {eventId : Uuid} {db : Db} (hl : ∀ k, s.locks k = none)
    (hx : s.txs x = none) (hn : s.now = c.now) (ha : c.op.isApi = true)
    (hc : s.db.commit c eventId = some db) : ∃ phase,
      exec step s ((System.callThrough x c eventId).filterMap (·.server))
        = some (setPhase { s with db } x ⟨System.callOf c, .connect⟩ phase)
      ∧ trace step committed s ((System.callThrough x c eventId).filterMap (·.server))
        = [(some x, .commit c eventId)] := by
  obtain ⟨job, hr, -, -, hins⟩ := Db.commit_eq_some hc
  have hget : s.db.outbox.events.get eventId = none := (Table.insert_eq_some.1 hins).1
  have hinst := install_of_commit ha hc hr
  let tx : Tx := ⟨System.callOf c, .connect⟩
  let written := TxPhase.commit (some (job, newOutboxEvent c.now eventId job.id))
  obtain ⟨locks, hlocks, hchange⟩ := change_of_run (s := s.setPhase x tx (.change c.now)) (x := x)
    (p := .change c.now) (hl c.id) ha hr
  rw [setPhase_setPhase] at hchange
  have h₁ : s.step (.call x (System.callOf c)) = some (s.setPhase x tx .connect) := by
    simp only [step, hx, setPhase, tx]
  have h₂ : (s.setPhase x tx .connect).step (.statement x true c.id)
      = some (s.setPhase x tx .begin) :=
    (step_statement setPhase_self).trans (congrArg some setPhase_setPhase)
  have h₃ : (s.setPhase x tx .begin).step (.statement x true c.id)
      = some (s.setPhase x tx (.change c.now)) :=
    (step_statement setPhase_self).trans (congrArg some (hn ▸ setPhase_setPhase))
  have h₄ : (s.setPhase x tx (.change c.now)).step (.statement x true c.id)
      = some { s.setPhase x tx (.insertEvent c.now job) with locks } :=
    (step_statement setPhase_self).trans hchange
  have h₅ : step { s.setPhase x tx (.insertEvent c.now job) with locks }
      (.statement x true eventId) = some { s.setPhase x tx written with locks } := by
    rw [step_statement (Function.update_self ..)]
    simp only [statement, setPhase, hget, Function.update_idem, Option.isNone_none, Bool.and_self,
      if_true]
    rfl
  have h₆ : step { s.setPhase x tx written with locks } (.statement x true c.id)
      = some (setPhase { s with db } x tx (.done (.returned (some job)))) := by
    rw [step_statement (Function.update_self ..)]
    simp only [statement, written, tx, setPhase, hinst, Function.update_idem, if_true,
      Option.some.injEq]
    exact release_locked (s := setPhase { s with db } x tx _) hl hlocks
  refine ⟨.done (.returned (some job)), ?_, ?_⟩
  · exact exec_cons.2 ⟨_, h₁, exec_cons.2 ⟨_, h₂, exec_cons.2 ⟨_, h₃, exec_cons.2 ⟨_, h₄,
      exec_cons.2 ⟨_, h₅, exec_singleton.2 h₆⟩⟩⟩⟩⟩
  · show trace step committed s [_, _, _, _, _, _] = _
    rw [trace_cons h₁, trace_cons h₂, trace_cons h₃, trace_cons h₄, trace_cons h₅, trace_cons h₆]
    simp only [committed, setPhase, Function.update_self, tx, written, trace, returnsRow,
      Db.id_of_run hr, (Call.writes hr).1.updatedAt, callOf_op ha, List.nil_append, if_true]
    rfl

end Server

namespace System

variable {s t : System}

theorem step_served {a : SystemAction} {b : ServerAction} {u : Server} (hb : a.server = some b)
    (h : s.server.step b = some u) :
    s.step a = some (s.serve u)
      ∧ s.atOnce a (s.serve u) = (s.server.committed b u).filterMap fun c => commitOf c.2 := by
  have hn := now_of_served hb h
  cases a with
  | world => simp [SystemAction.server] at hb
  | statement x ok uuid =>
    obtain rfl := Option.some.inj hb
    refine ⟨by simp only [step, h, Option.map_some], ?_⟩
    unfold atOnce
    rw [server_serve hn]
  | _ =>
    obtain rfl := Option.some.inj hb
    exact ⟨by simp only [step, h, Option.map_some], rfl⟩

theorem exec_served : ∀ {as : List SystemAction} {s : System} {u : Server},
    (∀ a ∈ as, a.server.isSome) → exec Server.step s.server (as.filterMap (·.server)) = some u →
      exec step s as = some (s.serve u)
        ∧ trace step atOnce s as
          = (trace Server.step Server.committed s.server (as.filterMap (·.server))).filterMap
            fun c => commitOf c.2
  | [], s, u, _, h => by
    obtain rfl := Option.some.inj h
    exact ⟨rfl, rfl⟩
  | a :: as, s, u, ha, h => by
    obtain ⟨ha, has⟩ := List.forall_mem_cons.1 ha
    obtain ⟨b, hb⟩ := Option.isSome_iff_exists.1 ha
    rw [List.filterMap_cons_some hb] at h ⊢
    obtain ⟨v, hv, h⟩ := exec_cons.1 h
    obtain ⟨hs, ho⟩ := step_served hb hv
    have hv' := server_serve (now_of_served hb hv)
    obtain ⟨he, ht⟩ := exec_served (s := s.serve v) has (by rwa [hv'])
    rw [trace_cons hs, trace_cons hv, List.filterMap_append, ho, ht, hv']
    exact ⟨exec_cons.2 ⟨_, hs, he⟩, rfl⟩

theorem step_moved {b : WorldAction} {world : World} (hc : ∀ c eventId, b ≠ .commit c eventId)
    (hw : s.waits b = false) (h : s.world.step b = some world) :
    s.step (.world b) = some { s with world } := by
  have hb : s.step (.world b)
      = if s.waits b then none else (s.world.step b).map fun world => { s with world } := by
    cases b <;> first | rfl | exact absurd rfl (hc _ _)
  rw [hb, hw, h]
  rfl

/-- No call holds a lock, and not all numbers are taken. -/
structure Idle (s : System) : Prop where
  locks : ∀ k, s.locks k = none
  calls : ∃ n, ∀ y, n ≤ y → s.txs y = none

theorem Idle.waits (hI : s.Idle) (b : WorldAction) : s.waits b = false := by
  unfold System.waits
  split
  · simp [hI.locks]
  · rfl

/-- A reading of the database's clock, with no time passing. -/
def reading : WorldAction → Bool
  | .pass elapsedMs _ => elapsedMs = 0
  | _ => false

def SameSteps (l m : List WorldAction) : Prop :=
  l.filter (fun b => !reading b) = m.filter fun b => !reading b

/-- Where no call is in the way, what `World` does the system can do. -/
theorem carries_out {b : WorldAction} {world : World} (hI : s.Idle)
    (h : s.world.step b = some world) : ∃ as t, exec step s as = some t ∧ t.world = world
      ∧ t.Idle ∧ SameSteps (trace step atOnce s as) [b] := by
  by_cases hb : ∃ c eventId, b = .commit c eventId
  · obtain ⟨c, eventId, rfl⟩ := hb
    cases World.step_cases h with
    | @committed _ _ db ha hc =>
      obtain ⟨x, hx⟩ := hI.calls
      let s₁ : System := { s with world := { s.world with now := c.now } }
      obtain ⟨phase, he, ht⟩ := Server.exec_callThrough (s := s₁.server) (x := x)
        hI.locks (hx x le_rfl) rfl ha hc
      have hserved : ∀ a ∈ callThrough x c eventId, a.server.isSome := by
        simp [callThrough, SystemAction.server]
      obtain ⟨hs, ho⟩ := exec_served (s := s₁) hserved he
      let u := Server.setPhase { s₁.server with db } x ⟨callOf c, .connect⟩ phase
      let t : System := { s₁.serve u with world := { s.world with db } }
      have h₀ : s.step (.world (.pass 0 c.now)) = some s₁ := rfl
      have hlast : (s₁.serve u).step (.world (.pass 0 s.world.now)) = some t := rfl
      refine ⟨.world (.pass 0 c.now) :: (callThrough x c eventId
        ++ [.world (.pass 0 s.world.now)]), t, exec_cons.2 ⟨_, h₀, exec_append.2 ⟨_, hs,
          exec_singleton.2 hlast⟩⟩, rfl, ⟨hI.locks, x + 1, fun y hy => ?_⟩, ?_⟩
      · exact (Function.update_of_ne (by omega) _ _).trans (hx y (by omega))
      · rw [trace_cons h₀, trace_append hs, ho, ht, trace_cons hlast]
        rfl
  · have hc : ∀ c eventId, b ≠ .commit c eventId := fun c eventId he => hb ⟨c, eventId, he⟩
    have hs := step_moved hc (hI.waits b) h
    refine ⟨[.world b], _, exec_singleton.2 hs, rfl, ⟨hI.locks, hI.calls⟩, ?_⟩
    rw [trace_cons hs]
    rfl

theorem exec_carries_out : ∀ {bs : List WorldAction} {s : System} {world : World}, s.Idle →
    exec World.step s.world bs = some world → ∃ as t, exec step s as = some t
      ∧ t.world = world ∧ t.Idle ∧ SameSteps (trace step atOnce s as) bs
  | [], s, world, hI, h => ⟨[], s, rfl, Option.some.inj h, hI, rfl⟩
  | b :: bs, s, world, hI, h => by
    obtain ⟨u, hu, h⟩ := exec_cons.1 h
    obtain ⟨as, t, hst, rfl, hI', hsame⟩ := carries_out hI hu
    obtain ⟨as', t', hst', hw, hI'', hsame'⟩ := exec_carries_out hI' h
    refine ⟨as ++ as', t', exec_append.2 ⟨t, hst, hst'⟩, hw, hI'', ?_⟩
    rw [trace_append hst]
    unfold SameSteps at *
    rw [List.filter_append, hsame, hsame', ← List.filter_append]
    rfl

/-- The system in its every run is `Server` and is `World`, with each transaction at its commit;
and there is no run of `World` that the system does not have, but for readings of the clock. -/
theorem statements_at_once :
    (∀ as s, exec step init as = some s →
      exec World.step World.init (trace step atOnce init as) = some s.world
        ∧ ∃ bs, exec Server.step Server.init bs = some s.server)
      ∧ ∀ bs world, exec World.step World.init bs = some world → ∃ as s,
        exec step init as = some s ∧ s.world = world
          ∧ SameSteps (trace step atOnce init as) bs := by
  refine ⟨fun as s h => ⟨?_, exec_refines_server h⟩, fun bs world h => ?_⟩
  · have hinit : init.Holds := fun y tx hy => by simp [init] at hy
    exact exec_trace_refines (I := Holds) world (fun _ _ _ => Holds.step)
      (fun _ _ _ => world_of_step) hinit h
  · obtain ⟨as, s, hs, hw, -, hsame⟩ := exec_carries_out (s := init)
      ⟨fun _ => rfl, 0, fun _ _ => rfl⟩ h
    exact ⟨as, s, hs, hw, hsame⟩

/-- Two replays of a job overlap: the one that is first to change the row begins the later. -/
def overlappingReplays : List SystemAction :=
  [.world (.pass 0 1), .call 0 (.createJob "email" [("shouldFailPermanently", .bool true)]),
    .statement 0 true 0, .statement 0 true 0, .statement 0 true 1, .statement 0 true 7,
    .statement 0 true 0, .world (.dispatch 0 (.claim {} .ok)),
    .world (.dispatch 0 (.publish .ok)), .world (.deliver 0 ⟨1⟩), .world (.work 0 (.claimJob .ok)),
    .world (.work 0 .processJob), .world (.work 0 (.record .ok)),
    .call 1 (.claimReplay 1), .statement 1 true 0, .statement 1 true 0, .world (.pass 0 5),
    .call 2 (.claimReplay 1), .statement 2 true 0, .statement 2 true 0, .statement 2 true 0,
    .statement 2 true 8, .world (.work 0 (.publish true true)), .statement 2 true 0,
    .statement 1 true 0, .statement 1 true 0]

theorem statements_at_once_overlappingReplays : ∃ s, exec step init overlappingReplays = some s
    ∧ (trace step atOnce init overlappingReplays).filterMap (fun
        | .commit c eventId => some (c, eventId)
        | _ => none)
      = [(⟨1, 1, .createJob "email" [("shouldFailPermanently", .bool true)]⟩, 7),
        (⟨1, 5, .claimReplay⟩, 8)]
    ∧ exec World.step World.init (trace step atOnce init overlappingReplays) = some s.world :=
  ⟨_, rfl, by decide, (statements_at_once.1 overlappingReplays _ rfl).1⟩

end System

end DeadLetter
