import DeadLetter.Transaction
import DeadLetter.Proofs.Db

/-!
# A job and its event change together

What a transaction has written, it holds the right to write: the row of a replay is locked, and
still dead-lettered in the tables (`Server.Pending`). So a commit is a commit of `Db`, and the
counts are kept (`Db.Counted`); and it is the one step of its call that the tables show.
-/

namespace DeadLetter

open Transition

/-- The phases in which a call has written nothing, and not returned a row. -/
def TxPhase.idle : TxPhase → Bool
  | .insertEvent _ _ | .commit (some _) | .done (.returned (some _)) => false
  | _ => true

def ApiCall.op : ApiCall → JobOp
  | .createJob type payload => .createJob type payload
  | .claimReplay _ => .claimReplay

namespace Server

variable {s t : Server} {x : ℕ} {tx : Tx}

def Pending (db : Db) (locks : Uuid → Option ℕ) (x : ℕ) (job : Job) : ApiCall → Prop
  | .createJob type payload => job = newJob job.updatedAt job.id type payload
  | .claimReplay id => locks id = some x ∧ ∃ i, db.jobs.get id = some i
      ∧ i.status = .deadLettered ∧ (claimReplayUpdate job.updatedAt).set i = job

/-- A step of call `x`: it has written nothing, or it writes the row, or the event, or commits. No
other call loses a lock. -/
inductive TxStep (s : Server) (x : ℕ) (tx : Tx) : Server → Prop
  | idle {phase : TxPhase} {locks : Uuid → Option ℕ} (hp : phase.idle = true)
      (hl : ∀ k y, y ≠ x → s.locks k = some y → locks k = some y) :
      TxStep s x tx { s.setPhase x tx phase with locks }
  | changed {begunAt : ℤ} {job : Job} {locks : Uuid → Option ℕ}
      (hw : Pending s.db locks x job tx.call) (hb : job.updatedAt = begunAt)
      (hl : ∀ k y, y ≠ x → s.locks k = some y → locks k = some y) :
      TxStep s x tx { s.setPhase x tx (.insertEvent begunAt job) with locks }
  | added {begunAt : ℤ} {job : Job} {uuid : Uuid} (hp : tx.phase = .insertEvent begunAt job) :
      TxStep s x tx
        (s.setPhase x tx (.commit (some (job, newOutboxEvent begunAt uuid job.id))))
  | committed {job : Job} {event : OutboxEvent} {db : Db} {locks : Uuid → Option ℕ}
      (hp : tx.phase = .commit (some (job, event)))
      (hi : install s.db tx.call job event = some db)
      (hl : ∀ k y, y ≠ x → s.locks k = some y → locks k = some y) :
      TxStep s x tx { s.setPhase x tx (.done (.returned (some job))) with db, locks }

theorem release_locks (k : Uuid) (y : ℕ) (hy : y ≠ x) (h : s.locks k = some y) :
    (s.release x).locks k = some y := by
  simp only [release, h, Option.some.injEq, hy, if_false]

theorem change_cases {begunAt : ℤ} {uuid : Uuid} (h : s.change x tx begunAt uuid = some t) :
    TxStep s x tx t := by
  have hsame : ∀ k y, y ≠ x → s.locks k = some y → s.locks k = some y := fun _ _ _ h => h
  unfold change at h
  rcases hc : tx.call with ⟨type, payload⟩ | id <;> simp only [hc] at h
  · rcases hg : s.db.jobs.get uuid with _ | i <;> simp only [hg, Option.some.injEq] at h <;>
      subst h
    · exact .changed (by rw [hc]; rfl) rfl hsame
    · exact .idle rfl hsame
  · rcases hr : ((claimReplayUpdate begunAt).run s.db.jobs id).2 with _ | job <;>
      rcases hl : s.locks id with _ | y <;>
      simp only [hr, hl, Option.some.injEq, reduceCtorEq] at h <;> subst h
    · exact .idle rfl hsame
    · exact .idle rfl hsame
    · obtain ⟨i, hi, hd, rfl⟩ := (JobUpdate.run_snd_eq_some _ _ _).1 hr
      refine @TxStep.changed _ _ _ begunAt _ _ ?_ rfl fun k y hy hk => ?_
      · rw [hc]
        exact ⟨Function.update_self .., i, hi, by simpa [claimReplayUpdate] using hd, rfl⟩
      · rw [Function.update_of_ne, hk]
        rintro rfl
        rw [hl] at hk
        exact absurd hk (by simp)

theorem statement_cases {ok : Bool} {uuid : Uuid} (h : s.statement x tx ok uuid = some t) :
    tx.phase.over = false ∧ TxStep s x tx t := by
  have hsame : ∀ k y, y ≠ x → s.locks k = some y → s.locks k = some y := fun _ _ _ h => h
  unfold statement at h
  rcases hp : tx.phase with _ | _ | begunAt | ⟨begunAt, job⟩ | _ | _ | _ | _ <;>
    simp only [hp, Option.some.injEq, reduceCtorEq] at h <;>
    refine ⟨rfl, ?_⟩
  · subst h
    cases ok <;> exact .idle rfl hsame
  · subst h
    cases ok <;> exact .idle rfl hsame
  · cases ok
    · simp only [Bool.false_eq_true, if_false, Option.some.injEq] at h
      subst h
      exact .idle rfl hsame
    · exact change_cases h
  · subst h
    split_ifs
    · exact .added hp
    · exact .idle rfl hsame
  · rename_i written
    rcases written with _ | ⟨job, event⟩
    · simp only [Option.some.injEq] at h
      subst h
      cases ok <;> exact .idle rfl release_locks
    · rcases hi : install s.db tx.call job event with _ | db <;> simp only [hi] at h
      · obtain rfl := Option.some.inj h
        exact .idle rfl hsame
      · cases ok <;> simp only [Bool.false_eq_true, if_false, if_true, Option.some.injEq] at h <;>
          subst h
        · exact .idle rfl hsame
        · exact .committed hp hi release_locks
  · subst h
    exact .idle rfl release_locks

/-- A step of the server: it is one of a call, or is the worker's or the dispatcher's. -/
inductive ServerStep (s : Server) : ServerAction → Server → Prop
  | clock {u : ℤ} : ServerStep s (.clock u) { s with now := u }
  | called {x : ℕ} {c : ApiCall} (h : s.txs x = none) :
      ServerStep s (.call x c)
        { s with txs := Function.update s.txs x (some { call := c, phase := .connect }) }
  | statement {x : ℕ} {tx : Tx} {ok : Bool} {uuid : Uuid} {t : Server} (h : s.txs x = some tx)
      (ho : tx.phase.over = false) (ht : TxStep s x tx t) : ServerStep s (.statement x ok uuid) t
  | crash {x : ℕ} {tx : Tx} {t : Server} (h : s.txs x = some tx) (ho : tx.phase.over = false)
      (ht : TxStep s x tx t) : ServerStep s (.crash x) t
  | worker {c : Call} {db : Db} (hl : c.succeeds s.db.jobs = true → s.locks c.id = none)
      (h : s.db.step (.call c) = some db) : ServerStep s (.worker c) { s with db }
  | dispatch {r : ℕ} {a : OutboxAction} {db : Db} (h : s.db.step (.dispatch s.now r a) = some db) :
      ServerStep s (.dispatch r a) { s with db }

theorem step_cases {a : ServerAction} (h : s.step a = some t) : ServerStep s a t := by
  cases a with
  | clock u =>
    obtain rfl := Option.some.inj h
    exact .clock
  | call x c =>
    unfold step at h
    rcases hx : s.txs x with _ | tx <;> simp only [hx, Option.some.injEq, reduceCtorEq] at h
    subst h
    exact .called hx
  | statement x ok uuid =>
    obtain ⟨tx, hx, ht⟩ := Option.bind_eq_some_iff.1 h
    obtain ⟨ho, ht⟩ := statement_cases ht
    exact .statement hx ho ht
  | crash x =>
    unfold step at h
    rcases hx : s.txs x with _ | tx <;> simp only [hx, reduceCtorEq] at h
    split_ifs at h with ho
    obtain rfl := Option.some.inj h
    exact .crash hx (by simpa using ho) (.idle rfl release_locks)
  | worker c =>
    unfold step at h
    simp only [Bool.and_eq_true, Option.isSome_iff_ne_none, ne_eq] at h
    split_ifs at h with hc
    obtain ⟨db, hdb, rfl⟩ := Option.map_eq_some_iff.1 h
    refine .worker (fun hs => ?_) hdb
    by_contra hl
    exact hc ⟨hs, hl⟩
  | dispatch r a =>
    obtain ⟨db, hdb, rfl⟩ := Option.map_eq_some_iff.1 h
    exact .dispatch hdb

/-! ## What a transaction holds -/

def Held (db : Db) (locks : Uuid → Option ℕ) (x : ℕ) (tx : Tx) : Prop :=
  match tx.phase with
  | .insertEvent begunAt job => Pending db locks x job tx.call ∧ job.updatedAt = begunAt
  | .commit (some (job, event)) => Pending db locks x job tx.call
      ∧ event = newOutboxEvent job.updatedAt event.id job.id
  | _ => True

variable {db db' : Db} {locks locks' : Uuid → Option ℕ}

theorem held_of_idle (h : tx.phase.idle = true) : Held db locks x tx := by
  unfold Held
  split <;> simp_all [TxPhase.idle]

theorem Pending.mono {job : Job} {call : ApiCall} (hp : Pending db locks x job call)
    (hl : ∀ k, locks k = some x → locks' k = some x)
    (hg : ∀ k i, locks k = some x → db.jobs.get k = some i → i.status = .deadLettered →
      db'.jobs.get k = some i) : Pending db' locks' x job call := by
  cases call with
  | createJob type payload => exact hp
  | claimReplay id =>
    obtain ⟨hk, i, hi, hd, hj⟩ := hp
    exact ⟨hl id hk, i, hg id i hk hi hd, hd, hj⟩

theorem Held.mono (hh : Held db locks x tx) (hl : ∀ k, locks k = some x → locks' k = some x)
    (hg : ∀ k i, locks k = some x → db.jobs.get k = some i → i.status = .deadLettered →
      db'.jobs.get k = some i) : Held db' locks' x tx := by
  obtain ⟨call, phase⟩ := tx
  cases phase with
  | insertEvent begunAt job => exact ⟨hh.1.mono hl hg, hh.2⟩
  | commit written =>
    cases written with
    | none => trivial
    | some w => exact ⟨hh.1.mono hl hg, hh.2⟩
  | _ => trivial

/-- What a call that returned its row made of the tables: the row, and one event for it. -/
def Installed (call : ApiCall) (job : Job) (before after : Db) : Prop :=
  (∃ event, event.jobId = job.id ∧ before.outbox.events.get event.id = none
      ∧ after.outbox.events.rows = before.outbox.events.rows ++ [event])
    ∧ match call with
      | .createJob type payload => job = newJob job.updatedAt job.id type payload
          ∧ before.jobs.get job.id = none ∧ after.jobs.rows = before.jobs.rows ++ [job]
      | .claimReplay id => (∃ i, before.jobs.get id = some i ∧ i.status = .deadLettered
          ∧ (claimReplayUpdate job.updatedAt).set i = job)
          ∧ ∀ k, after.jobs.get k = if k = id then some job else before.jobs.get k

theorem install_eq_some {call : ApiCall} {job : Job} {event : OutboxEvent}
    (h : install db call job event = some db') :
    db'.outbox.runs = db.outbox.runs ∧ db.outbox.events.insert event = some db'.outbox.events
      ∧ match call with
        | .createJob _ _ => db.jobs.insert job = some db'.jobs
        | .claimReplay _ => db'.jobs = db.jobs.replace job := by
  unfold install at h
  rcases he : db.outbox.events.insert event with _ | events <;> rw [he] at h
  · cases call <;> simp at h
  · cases call with
    | createJob type payload =>
      rcases hj : db.jobs.insert job with _ | jobs <;> simp only [hj, Option.some.injEq,
        reduceCtorEq] at h
      subst h
      exact ⟨rfl, rfl, rfl⟩
    | claimReplay id =>
      simp only [Option.some.injEq] at h
      subst h
      exact ⟨rfl, rfl, rfl⟩

theorem installed_of_install {call : ApiCall} {job : Job} {event : OutboxEvent}
    (h : install db call job event = some db') (hp : Pending db locks x job call)
    (he : event = newOutboxEvent job.updatedAt event.id job.id) :
    Installed call job db db' := by
  obtain ⟨-, hev, hj⟩ := install_eq_some h
  refine ⟨⟨event, by rw [he]; rfl, Table.insert_eq_some.1 hev⟩, ?_⟩
  cases call with
  | createJob type payload => exact ⟨hp, Table.insert_eq_some.1 hj⟩
  | claimReplay id =>
    obtain ⟨-, i, hi, hd, hs⟩ := hp
    refine ⟨⟨i, hi, hd, hs⟩, fun k => ?_⟩
    have hid : job.id = id := by
      rw [← hs, JobUpdate.set_id]
      exact Table.key_of_get hi
    simp only at hj
    rw [hj, Table.get_replace, hid]
    split_ifs with hk
    · rw [hk, hi]; rfl
    · rfl

/-- What a transaction has written is what its call makes of the tables it commits to. -/
theorem run_of_install {call : ApiCall} {job : Job} {event : OutboxEvent}
    (h : install db call job event = some db') (hp : Pending db locks x job call) :
    Call.run db.jobs ⟨job.id, job.updatedAt, call.op⟩ = (db'.jobs, some job) := by
  obtain ⟨-, -, hj⟩ := install_eq_some h
  cases call with
  | createJob type payload =>
    have hn : newJob job.updatedAt job.id type payload = job := Eq.symm hp
    simp only at hj
    simp only [Call.run, ApiCall.op, hn, hj]
  | claimReplay id =>
    obtain ⟨-, i, hi, hd, hs⟩ := hp
    have hid : job.id = id := by
      rw [← hs, JobUpdate.set_id]
      exact Table.key_of_get hi
    have hc : (claimReplayUpdate job.updatedAt).cond i = true := by
      simpa [claimReplayUpdate] using hd
    simp only [Call.run, ApiCall.op, JobUpdate.run, hid, Prod.mk.injEq]
    rw [hj]
    refine ⟨?_, Table.returningKey_eq_some.2 ⟨i, hi, hc, hs⟩⟩
    have := Table.replace_eq_updateKey (claimReplayUpdate job.updatedAt).set_id hi hc
    rw [hs] at this
    exact this.symm

theorem commit_of_install {call : ApiCall} {job : Job} {event : OutboxEvent}
    (h : install db call job event = some db') (hp : Pending db locks x job call)
    (he : event = newOutboxEvent job.updatedAt event.id job.id) :
    db.step (.commit ⟨job.id, job.updatedAt, call.op⟩ event.id) = some db' := by
  obtain ⟨hr, hev, -⟩ := install_eq_some h
  have hins : insertOutboxEvent job.updatedAt db.outbox.events event.id job.id
      = some db'.outbox.events := by
    rw [insertOutboxEvent, ← he]
    exact hev
  have happ : JobOp.isApi call.op = true := by cases call <;> rfl
  simp only [Db.step, happ, if_true, Db.commit, run_of_install h hp, hins, Option.map_some,
    Option.some.injEq]
  rw [← hr]

/-- No worker's statement changes a dead-lettered row. -/
theorem get_of_call {c : Call} (h : db.step (.call c) = some db') {k : Uuid} {i : Job}
    (hi : db.jobs.get k = some i) (hd : i.status = .deadLettered) :
    db'.jobs.get k = some i := by
  simp only [Db.step] at h
  split_ifs at h with ha
  obtain rfl := Option.some.inj h
  rcases hr : (c.run db.jobs).2 with _ | j
  · rwa [Call.run_of_none hr]
  · obtain ⟨hw, hg⟩ := Call.writes hr
    simp only
    rw [hg, if_neg, hi]
    rintro rfl
    rw [hi] at hw
    exact ha (hw.op_of_deadLettered hd ▸ rfl)

theorem installed_get {call : ApiCall} {job : Job} (h : Installed call job db db') {k : Uuid}
    {i : Job} (hi : db.jobs.get k = some i) (hk : call ≠ .claimReplay k) :
    db'.jobs.get k = some i := by
  cases call with
  | createJob type payload =>
    obtain ⟨-, -, hj⟩ := h
    rw [Table.get_insert (Table.insert_eq_some.2 hj), if_neg, hi]
    rintro rfl
    rw [hj.1] at hi
    exact absurd hi (by simp)
  | claimReplay id =>
    rw [h.2.2 k, if_neg, hi]
    rintro rfl
    exact hk rfl

/-- A transaction about to commit has written the row and its event. -/
theorem Held.written (hh : Held db locks x tx) {job : Job} {event : OutboxEvent}
    (hp : tx.phase = .commit (some (job, event))) :
    Pending db locks x job tx.call ∧ event = newOutboxEvent job.updatedAt event.id job.id := by
  unfold Held at hh
  rw [hp] at hh
  exact hh

/-- The tables change where a call returns its row, and nowhere else. -/
theorem TxStep.tables (ht : TxStep s x tx t) :
    (t.db = s.db ∧ ∃ phase, t.txs x = some { tx with phase }
      ∧ ∀ job, phase ≠ .done (.returned (some job)))
    ∨ ∃ job event, tx.phase = .commit (some (job, event))
      ∧ install s.db tx.call job event = some t.db
      ∧ t.txs x = some { tx with phase := .done (.returned (some job)) } := by
  cases ht with
  | idle hp =>
    refine .inl ⟨rfl, _, Function.update_self .., ?_⟩
    rintro job rfl
    simp [TxPhase.idle] at hp
  | changed => exact .inl ⟨rfl, _, Function.update_self .., by simp⟩
  | added => exact .inl ⟨rfl, _, Function.update_self .., by simp⟩
  | committed hp hi => exact .inr ⟨_, _, hp, hi, Function.update_self ..⟩

section Others

variable {y : ℕ} (ht : TxStep s x tx t) (hyx : y ≠ x)

include ht hyx

theorem TxStep.txs_of_ne : t.txs y = s.txs y := by
  cases ht <;> exact Function.update_of_ne hyx _ _

theorem TxStep.locks_of_ne {k : Uuid} (hk : s.locks k = some y) : t.locks k = some y := by
  cases ht with
  | idle _ hl => exact hl k y hyx hk
  | changed _ _ hl => exact hl k y hyx hk
  | added => exact hk
  | committed _ _ hl => exact hl k y hyx hk

/-- A row that another call has locked is as it was. -/
theorem TxStep.get_of_locked (hh : Held s.db s.locks x tx) {k : Uuid} {i : Job}
    (hk : s.locks k = some y) (hi : s.db.jobs.get k = some i) : t.db.jobs.get k = some i := by
  cases ht with
  | committed hp hins =>
    obtain ⟨hw, he⟩ := hh.written hp
    refine installed_get (installed_of_install hins hw he) hi fun hc => ?_
    rw [hc] at hw
    exact hyx (Option.some.inj (hk.symm.trans hw.1))
  | _ => exact hi

end Others

theorem TxStep.held (ht : TxStep s x tx t) (hh : Held s.db s.locks x tx) {tx' : Tx}
    (hx : t.txs x = some tx') : Held t.db t.locks x tx' := by
  cases ht <;> simp only [setPhase, Function.update_self, Option.some.injEq] at hx <;> subst hx
  case idle hp _ => exact held_of_idle hp
  case changed hw hb _ => exact ⟨hw, hb⟩
  case added begunAt job uuid hp =>
    unfold Held at hh
    rw [hp] at hh
    exact ⟨hh.1, by rw [hh.2]; rfl⟩
  case committed => trivial

/-- What is written stays held: a locked row is changed by no other call. -/
theorem held_step {a : ServerAction} (hI : ∀ y tx, s.txs y = some tx → Held s.db s.locks y tx)
    (h : s.step a = some t) : ∀ y tx, t.txs y = some tx → Held t.db t.locks y tx := by
  have hx : ∀ {x tx t}, s.txs x = some tx → TxStep s x tx t →
      ∀ y tx, t.txs y = some tx → Held t.db t.locks y tx := by
    intro x tx t hx ht y tx' hy
    by_cases hyx : y = x
    · subst hyx
      exact ht.held (hI y tx hx) hy
    · rw [ht.txs_of_ne hyx] at hy
      exact (hI y tx' hy).mono (fun k => ht.locks_of_ne hyx) fun k i hk hi _ =>
        ht.get_of_locked hyx (hI x tx hx) hk hi
  cases step_cases h with
  | clock => exact hI
  | @called x c hx =>
    intro y tx hy
    by_cases hyx : y = x
    · subst hyx
      simp only [Function.update_self, Option.some.injEq] at hy
      exact hy ▸ trivial
    · simp only [Function.update_of_ne hyx] at hy
      exact hI y tx hy
  | statement hs _ ht => exact hx hs ht
  | crash hs _ ht => exact hx hs ht
  | worker hl hc =>
    exact fun y tx hy => (hI y tx hy).mono (fun _ => id) fun k i _ => get_of_call hc
  | dispatch hd =>
    obtain ⟨outbox, -, rfl⟩ := Option.map_eq_some_iff.1 hd
    exact fun y tx hy => (hI y tx hy).mono (fun _ => id) fun k i _ hi _ => hi

/-- Each step of the server is a commit of `Db`, or leaves the tables as they are. -/
theorem step_refines {a : ServerAction} (hI : ∀ y tx, s.txs y = some tx → Held s.db s.locks y tx)
    (h : s.step a = some t) : ∃ bs, exec Db.step s.db bs = some t.db := by
  have hx : ∀ {x tx t}, s.txs x = some tx → TxStep s x tx t →
      ∃ bs, exec Db.step s.db bs = some t.db := by
    intro x tx t hx ht
    cases ht with
    | committed hp hi =>
      obtain ⟨hw, he⟩ := (hI x tx hx).written hp
      exact ⟨_, exec_singleton.2 (commit_of_install hi hw he)⟩
    | _ => exact ⟨[], rfl⟩
  cases step_cases h with
  | statement hs _ ht => exact hx hs ht
  | crash hs _ ht => exact hx hs ht
  | worker _ hc => exact ⟨_, exec_singleton.2 hc⟩
  | dispatch hd => exact ⟨_, exec_singleton.2 hd⟩
  | _ => exact ⟨[], rfl⟩

theorem exec_refines_db {as : List ServerAction} (h : exec step init as = some s) :
    ∃ bs, exec Db.step Db.init bs = some s.db :=
  exec_refines (·.db) (fun _ _ _ => held_step) (fun _ _ _ => step_refines)
    (fun _ _ hx => by simp [init] at hx) h

/-! ## What a call has done -/

variable {l : List Effect}

def Quiet (l : List Effect) (x : ℕ) : Prop := ∀ e ∈ l, e.tx = x → e.after = e.before

/-- One step of the call has, and it put in the row and its event. -/
def Added (l : List Effect) (x : ℕ) (call : ApiCall) (job : Job) : Prop :=
  ∃ l₁ e l₂, l = l₁ ++ e :: l₂ ∧ e.tx = x ∧ Quiet (l₁ ++ l₂) x
    ∧ Installed call job e.before e.after

def Effects (l : List Effect) (x : ℕ) : Option Tx → Prop
  | some ⟨call, .done (.returned (some job))⟩ => Added l x call job
  | _ => Quiet l x

theorem Quiet.append {m : List Effect} (hl : Quiet l x) (hm : Quiet m x) : Quiet (l ++ m) x :=
  fun e he => (List.mem_append.1 he).elim (hl e) (hm e)

theorem quiet_of_ne {y : ℕ} {b a : Db} (h : y ≠ x) :
    Quiet [{ tx := y, before := b, after := a }] x := by
  rintro e he hx
  rw [List.mem_singleton.1 he] at hx
  exact absurd hx h

theorem quiet_same {y : ℕ} {b : Db} : Quiet [{ tx := y, before := b, after := b }] x := by
  intro e he _
  rw [List.mem_singleton.1 he]

theorem Effects.append {m : List Effect} {o : Option Tx} (hl : Effects l x o) (hm : Quiet m x) :
    Effects (l ++ m) x o := by
  unfold Effects at hl ⊢
  split
  · obtain ⟨l₁, e, l₂, rfl, hx, hq, hi⟩ := hl
    refine ⟨l₁, e, l₂ ++ m, by simp, hx, ?_, hi⟩
    rw [← List.append_assoc]
    exact hq.append hm
  · rename_i hne
    split at hl
    · exact absurd rfl (hne _ _)
    · exact hl.append hm

theorem Effects.quiet (hl : Effects l x (some tx)) (ho : tx.phase.over = false) : Quiet l x := by
  obtain ⟨call, phase⟩ := tx
  cases phase with
  | done result => simp [TxPhase.over] at ho
  | _ => exact hl

theorem Effects.quiet_of_ne {o : Option Tx} (hl : Effects l x o)
    (ho : ∀ call job, o ≠ some { call, phase := .done (.returned (some job)) }) : Quiet l x := by
  unfold Effects at hl
  split at hl
  · exact absurd rfl (ho _ _)
  · exact hl

theorem Quiet.effects {call : ApiCall} {phase : TxPhase} (hl : Quiet l x)
    (hp : phase.idle = true) : Effects l x (some { call, phase }) := by
  unfold Effects
  split
  · simp_all [TxPhase.idle]
  · exact hl

theorem TxStep.effects (hE : ∀ y, Effects l y (s.txs y)) (hx : s.txs x = some tx)
    (hh : Held s.db s.locks x tx) (ho : tx.phase.over = false) (ht : TxStep s x tx t) (y : ℕ) :
    Effects (l ++ [{ tx := x, before := s.db, after := t.db }]) y (t.txs y) := by
  by_cases hyx : y = x
  swap
  · rw [ht.txs_of_ne hyx]
    exact (hE y).append (quiet_of_ne (Ne.symm hyx))
  subst hyx
  have hq : Quiet l y := Effects.quiet (hx ▸ hE y) ho
  cases ht with
  | idle hp =>
    simp only [setPhase, Function.update_self]
    exact (hq.append quiet_same).effects hp
  | changed =>
    simp only [setPhase, Function.update_self]
    exact hq.append quiet_same
  | added =>
    simp only [setPhase, Function.update_self]
    exact hq.append quiet_same
  | committed hp hi =>
    simp only [setPhase, Function.update_self]
    obtain ⟨hw, he⟩ := hh.written hp
    refine ⟨l, _, [], rfl, rfl, ?_, installed_of_install hi hw he⟩
    rwa [List.append_nil]

theorem effects_init (y : ℕ) : Effects [] y (init.txs y) := fun _ h => by simp at h

theorem effects_step {a : ServerAction}
    (hI : ∀ y tx, s.txs y = some tx → Held s.db s.locks y tx)
    (hE : ∀ y, Effects l y (s.txs y)) (h : s.step a = some t) :
    ∀ y, Effects (l ++ s.shown a t) y (t.txs y) := by
  cases step_cases h with
  | @called x c hx =>
    intro y
    simp only [shown, List.append_nil]
    by_cases hyx : y = x
    · subst hyx
      have hq := hE y
      rw [hx] at hq
      simp only [Function.update_self]
      exact Quiet.effects hq rfl
    · simpa only [Function.update_of_ne hyx] using hE y
  | statement hs ho ht => exact ht.effects hE hs (hI _ _ hs) ho
  | crash hs ho ht => exact ht.effects hE hs (hI _ _ hs) ho
  | _ => simpa only [shown, List.append_nil] using hE

/-! ## Inseparable -/

/-- What holds of the tables and of the calls in a state reached, `l` being what the calls' steps
did. -/
structure Inseparable (l : List Effect) (s : Server) : Prop where
  /-- A job has one event for its creation and one for each replay. -/
  counted : ∀ j ∈ s.db.jobs, s.db.outbox.events.rows.countP (·.jobId = j.id) = 1 + j.replayCount
  /-- No event is without its job. -/
  referenced : ∀ e ∈ s.db.outbox.events, ∃ j ∈ s.db.jobs, j.id = e.jobId
  /-- A call that rejected, or returned `null`, has changed nothing. -/
  unchanged : ∀ x tx, s.txs x = some tx →
    tx.phase = .done .rejected ∨ tx.phase = .done (.returned none) → Quiet l x
  /-- A call that returned a row put it in, with one event for it, and changed nothing else. -/
  added : ∀ x tx job, s.txs x = some tx → tx.phase = .done (.returned (some job)) →
    Added l x tx.call job

/-- In every run of concurrent calls, whichever of their statements fail, and of worker and
dispatcher steps, a job's change and its event are one. -/
theorem job_and_event_inseparable {as : List ServerAction} (h : exec step init as = some s) :
    Inseparable (trace step shown init as) s := by
  obtain ⟨bs, hbs⟩ := exec_refines_db h
  have hC : s.db.Counted := exec_inv (fun _ _ _ => Db.Counted.step) Db.counted_init hbs
  have hE := exec_trace_inv
    (I := fun l s => (∀ y tx, s.txs y = some tx → Held s.db s.locks y tx)
      ∧ ∀ y, Effects l y (s.txs y))
    (fun l s a t hI h => ⟨held_step hI.1 h, effects_step hI.1 hI.2 h⟩)
    ⟨fun _ _ hx => by simp [init] at hx, effects_init⟩ h
  refine ⟨fun j hj => ?_, fun e he => hC.mem_jobs he, fun x tx hx hp => ?_,
    fun x tx job hx hp => ?_⟩
  · have := hC j.id
    rw [Db.eventsOf, Db.submissions, Table.get_of_mem hj] at this
    rwa [List.count, List.countP_map] at this
  · have := hE.2 x
    rw [hx] at this
    obtain ⟨call, phase⟩ := tx
    rcases hp with rfl | rfl <;> exact this
  · have := hE.2 x
    rw [hx] at this
    obtain ⟨call, phase⟩ := tx
    obtain rfl : phase = .done (.returned (some job)) := hp
    exact this

/-- Two replays of one job, the second of which waits for the first, after a creation whose event
could not be added. -/
def racingReplays : List ServerAction :=
  [.call 0 (.createJob "email" []), .call 1 (.createJob "email" []), .statement 0 true 0,
    .statement 1 true 0, .statement 0 true 0, .statement 1 true 0, .statement 0 true 5,
    .statement 1 true 6, .statement 0 true 7, .statement 1 false 0, .statement 0 true 0,
    .statement 1 true 0, .worker ⟨5, 1, .claimJob⟩, .worker ⟨5, 2, .markDeadLettered "gone"⟩,
    .clock 3, .call 2 (.claimReplay 5), .call 3 (.claimReplay 5), .statement 2 true 0,
    .statement 3 true 0, .statement 2 true 0, .statement 3 true 0, .statement 2 true 0,
    .dispatch 0 (.claim {} .ok), .statement 2 true 8, .statement 2 true 0,
    .statement 3 true 0, .statement 3 true 0]

theorem job_and_event_inseparable_racingReplays : ∃ s, exec step init racingReplays = some s
    ∧ s.db.outbox.events.rows.map (fun e => (e.id, e.jobId)) = [(7, 5), (8, 5)]
    ∧ (s.txs 1).map (·.phase) = some (.done .rejected)
    ∧ (s.txs 3).map (·.phase) = some (.done (.returned none))
    ∧ Inseparable (trace step shown init racingReplays) s :=
  ⟨_, rfl, by decide, by decide, by decide, job_and_event_inseparable rfl⟩

end Server

end DeadLetter
