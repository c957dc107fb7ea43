import DeadLetter.Api
import DeadLetter.Proofs.Transaction

/-!
# A route reports what it did

A step of the process moves one request, or is the worker's or the dispatcher's (`ApiStep`). What
a request has come to and what its call has come to tell the same (`Serves`), and a call shows in
the tables just where it returns a row; so do the responses, then.
-/

namespace DeadLetter

open Transition

/-- The responses of success are those without an error. -/
theorem Response.error_eq_none {r : Response} :
    r.error = none ↔ r.status = 201 ∨ r.status = 200 := by
  cases r <;> simp [Response.error, Response.status]

/-- A step that is no request's. -/
def ApiAction.other : ApiAction → Option ServerAction
  | .clock t => some (.clock t)
  | .worker c => some (.worker c)
  | .dispatch r a => some (.dispatch r a)
  | _ => none

/-- The call a request is for. -/
def ApiEnv.call (env : ApiEnv) (request : HttpRequest) : Option ApiCall :=
  match request.route with
  | .create body => (createJobSchema env.record body).map fun (type, payload) =>
    .createJob type payload
  | .replay id => (env.jobIdParamSchema id).map .claimReplay

/-- A job has been created for the request, or is about to be reported. -/
def RequestPhase.created : RequestPhase → Bool
  | .returned (.createJob _ _) (.returned (some _)) | .responded (.created _ _) => true
  | _ => false

def RequestPhase.replayed : RequestPhase → Bool
  | .returned (.claimReplay _) (.returned (some _)) | .responded (.replayed _ _ _) => true
  | _ => false

theorem Response.not_created {r : Response} (hr : r.error ≠ none) :
    (RequestPhase.responded r).created = false ∧ (RequestPhase.responded r).replayed = false := by
  cases r <;> first | exact absurd rfl hr | exact ⟨rfl, rfl⟩

namespace Api

variable {env : ApiEnv} {s t : Api} {i : ℕ} {q : RequestState}

/-! ## A step -/

/-- A request found in a phase goes on to another. -/
inductive Move (env : ApiEnv) (s : Api) (i : ℕ) (q : RequestState) :
    ApiAction → RequestPhase → Server → Prop
  | snapshot (hp : q.phase = .getStats) : Move env s i q (.getStats i true)
      (.stats (DeadLetter.getStats s.server.db).pendingOutboxEvents) s.server
  | statsThrew (hp : q.phase = .getStats) :
      Move env s i q (.getStats i false) (.responded .internalServerError) s.server
  | resumed {phase : RequestPhase} {server : Server} (hr : resume env q = some phase)
      (h : enter s.server i phase = some server) : Move env s i q (.resume i) phase server
  | statement {c : ApiCall} {ok : Bool} {uuid : Uuid} {server : Server}
      (hp : q.phase = .transaction c) (h : s.server.step (.statement i ok uuid) = some server) :
      Move env s i q (.statement i ok uuid) (phaseOf server i c) server
  | read {id : Uuid} {ok : Bool} (hp : q.phase = .getJobById id) :
      Move env s i q (.getJobById i ok) (.responded (if ok
        then replayRefused s.server.db.jobs id else .internalServerError)) s.server

inductive ApiStep (env : ApiEnv) (s : Api) : ApiAction → Api → Prop
  | received {request : HttpRequest} {nowMs : ℚ} {server : Server}
      (h : enter s.server s.requests.length (env.receive s.buckets request nowMs).2
        = some server) :
      ApiStep env s (.receive request nowMs) {
        server
        buckets := (env.receive s.buckets request nowMs).1
        requests := s.requests
          ++ [{ request, nowMs, phase := (env.receive s.buckets request nowMs).2 }] }
  | moved {a : ApiAction} {i : ℕ} {q : RequestState} {phase : RequestPhase} {server : Server}
      (hq : s.requests[i]? = some q) (hm : Move env s i q a phase server) :
      ApiStep env s a { s.setPhase i q phase with server }
  | ran {a : ApiAction} {b : ServerAction} {server : Server} (ha : a.other = some b)
      (h : s.server.step b = some server) : ApiStep env s a { s with server }

theorem step_cases {a : ApiAction} (h : step env s a = some t) : ApiStep env s a t := by
  cases a with
  | receive request nowMs =>
    obtain ⟨server, hs, rfl⟩ := Option.map_eq_some_iff.1 h
    exact .received hs
  | getStats i ok =>
    obtain ⟨q, hq, h⟩ := Option.bind_eq_some_iff.1 h
    rcases hp : q.phase with _ | _ | _ | _ | _ | _ <;>
      simp only [hp, Option.some.injEq, reduceCtorEq] at h
    subst h
    cases ok
    · exact .moved hq (.statsThrew hp)
    · exact .moved hq (.snapshot hp)
  | resume i =>
    obtain ⟨q, hq, h⟩ := Option.bind_eq_some_iff.1 h
    obtain ⟨phase, hr, h⟩ := Option.bind_eq_some_iff.1 h
    obtain ⟨server, hs, rfl⟩ := Option.map_eq_some_iff.1 h
    exact .moved hq (.resumed hr hs)
  | statement i ok uuid =>
    obtain ⟨q, hq, h⟩ := Option.bind_eq_some_iff.1 h
    rcases hp : q.phase with _ | _ | c | _ | _ | _ <;> simp only [hp, reduceCtorEq] at h
    obtain ⟨server, hs, rfl⟩ := Option.map_eq_some_iff.1 h
    exact .moved hq (.statement hp hs)
  | getJobById i ok =>
    obtain ⟨q, hq, h⟩ := Option.bind_eq_some_iff.1 h
    rcases hp : q.phase with _ | _ | _ | _ | id | _ <;>
      simp only [hp, Option.some.injEq, reduceCtorEq] at h
    subst h
    exact .moved hq (.read hp)
  | clock u =>
    unfold step at h
    obtain ⟨server, hs, rfl⟩ := Option.map_eq_some_iff.1 h
    exact .ran rfl hs
  | worker c =>
    obtain ⟨server, hs, rfl⟩ := Option.map_eq_some_iff.1 h
    exact .ran rfl hs
  | dispatch r a =>
    obtain ⟨server, hs, rfl⟩ := Option.map_eq_some_iff.1 h
    exact .ran rfl hs

/-- What a request's step is to the server: nothing, its call, or a statement of it. -/
inductive Touches (s : Server) (i : ℕ) : Server → Prop
  | nothing : Touches s i s
  | call {c : ApiCall} (hx : s.txs i = none) : Touches s i
      { s with txs := Function.update s.txs i (some { call := c, phase := .connect }) }
  | statement {tx : Tx} {server : Server} {ok : Bool} {uuid : Uuid} (hx : s.txs i = some tx)
      (ho : tx.phase.over = false) (ht : Server.TxStep s i tx server)
      (h : s.step (.statement i ok uuid) = some server) : Touches s i server

theorem touches_of_enter {server server' : Server} {phase : RequestPhase}
    (h : enter server i phase = some server') : Touches server i server' := by
  cases phase with
  | transaction c =>
    have h : server.step (.call i c) = some server' := h
    cases Server.step_cases h with
    | called hx => exact .call hx
  | _ =>
    obtain rfl := Option.some.inj h
    exact .nothing

theorem Move.touches {a : ApiAction} {phase : RequestPhase} {server : Server}
    (hm : Move env s i q a phase server) : Touches s.server i server := by
  cases hm with
  | resumed _ h => exact touches_of_enter h
  | statement _ h =>
    cases Server.step_cases h with
    | statement hx ho ht => exact .statement hx ho ht h
  | _ => exact .nothing

namespace Touches

variable {server server' : Server} {l : List Server.Effect}

theorem txs_of_ne (h : Touches server i server') {j : ℕ} (hj : j ≠ i) :
    server'.txs j = server.txs j := by
  cases h with
  | nothing => rfl
  | call => exact Function.update_of_ne hj _ _
  | statement _ _ ht => exact ht.txs_of_ne hj

theorem held (h : Touches server i server')
    (hI : ∀ y tx, server.txs y = some tx → Server.Held server.db server.locks y tx) :
    ∀ y tx, server'.txs y = some tx → Server.Held server'.db server'.locks y tx := by
  cases h with
  | nothing => exact hI
  | @call c hx =>
    exact Server.held_step (a := .call i c) hI (by simp only [Server.step, hx])
  | statement _ _ _ h => exact Server.held_step hI h

theorem effects (h : Touches server i server')
    (hI : ∀ y tx, server.txs y = some tx → Server.Held server.db server.locks y tx)
    (hE : ∀ y, Server.Effects l y (server.txs y)) (y : ℕ) :
    Server.Effects (l ++ [{ tx := i, before := server.db, after := server'.db }]) y
      (server'.txs y) := by
  cases h with
  | nothing => exact (hE y).append Server.quiet_same
  | @call c hx =>
    have := Server.effects_step (a := .call i c) hI hE (by simp only [Server.step, hx]; rfl) y
    simp only [Server.shown, List.append_nil] at this
    exact this.append Server.quiet_same
  | statement _ _ _ h => exact Server.effects_step hI hE h y

end Touches

/-- The process makes a run of the server. -/
theorem exec_refines_server {as : List ApiAction} (h : exec (step env) s as = some t) :
    ∃ bs, exec Server.step s.server bs = some t.server := by
  have htouch : ∀ {server server' : Server} {i : ℕ}, Touches server i server' →
      ∃ bs, exec Server.step server bs = some server' := by
    intro server server' i ht
    cases ht with
    | nothing => exact ⟨[], rfl⟩
    | @call c hx => exact ⟨[.call i c], exec_singleton.2 (by simp only [Server.step, hx])⟩
    | statement _ _ _ h => exact ⟨_, exec_singleton.2 h⟩
  have hstep : ∀ (s : Api) a t, True → step env s a = some t →
      ∃ bs, exec Server.step s.server bs = some t.server := by
    intro s a t _ h
    cases step_cases h with
    | received he => exact htouch (touches_of_enter he)
    | moved _ hm => exact htouch hm.touches
    | ran _ hb => exact ⟨_, exec_singleton.2 hb⟩
  exact exec_refines (·.server) (fun _ _ _ _ _ => trivial) hstep trivial h

/-! ## A request and its call -/

/-- What a request has come to, and what its call has. -/
inductive Serves (env : ApiEnv) (request : HttpRequest) : RequestPhase → Option Tx → Prop
  | getStats : Serves env request .getStats none
  | stats {n : ℕ} : Serves env request (.stats n) none
  | transaction {c : ApiCall} {phase : TxPhase} (hc : env.call request = some c)
      (ho : ∀ result, phase ≠ .done result) :
      Serves env request (.transaction c) (some { call := c, phase })
  | returned {c : ApiCall} {result : ApiResult} (hc : env.call request = some c) :
      Serves env request (.returned c result) (some { call := c, phase := .done result })
  | getJobById {c : ApiCall} {id : Uuid} :
      Serves env request (.getJobById id) (some { call := c, phase := .done (.returned none) })
  | failed {r : Response} {o : Option Tx} (hr : r.error ≠ none)
      (ho : ∀ c job, o ≠ some { call := c, phase := .done (.returned (some job)) }) :
      Serves env request (.responded r) o
  | succeeded {c : ApiCall} {job : Job} {r : Response} (hc : env.call request = some c)
      (hr : afterCall c (.returned (some job)) = .responded r) :
      Serves env request (.responded r)
        (some { call := c, phase := .done (.returned (some job)) })

theorem error_replayRefused (jobs : Jobs) (id : Uuid) :
    (replayRefused jobs id).error ≠ none := by
  unfold replayRefused
  split <;> simp [Response.error]

/-- The phases before any call. -/
inductive Opens (env : ApiEnv) (request : HttpRequest) : RequestPhase → Prop
  | getStats : Opens env request .getStats
  | transaction {c : ApiCall} (hc : env.call request = some c) :
      Opens env request (.transaction c)
  | responded {r : Response} (hr : r.error ≠ none) : Opens env request (.responded r)

variable {request : HttpRequest} {phase : RequestPhase}

theorem opens_postJob {body : Option JobBody} (hb : request.route = .create body) :
    Opens env request (env.postJob body) := by
  unfold ApiEnv.postJob
  rcases hc : createJobSchema env.record body with _ | ⟨type, payload⟩
  · exact .responded (by simp [Response.error])
  · exact .transaction (by simp [ApiEnv.call, hb, hc])

theorem opens_postReplay {id : String} (hr : request.route = .replay id) :
    Opens env request (env.postReplay id) := by
  unfold ApiEnv.postReplay
  rcases hc : env.jobIdParamSchema id with _ | jobId
  · exact .responded (by simp [Response.error])
  · exact .transaction (by simp [ApiEnv.call, hr, hc])

theorem opens_receive (buckets : Buckets) (nowMs : ℚ) :
    Opens env request (env.receive buckets request nowMs).2 := by
  unfold ApiEnv.receive
  split_ifs
  · exact .responded (by simp [Response.error])
  · exact .responded (by simp [Response.error])
  · simp only
    split
    · exact .responded (by simp [Response.error])
    · exact .getStats
    · exact opens_postReplay ‹_›

theorem opens_afterStats {n : ℕ} (h : env.afterStats n request.route = some phase) :
    Opens env request phase := by
  rcases hb : request.route with body | id <;>
    simp only [hb, ApiEnv.afterStats, Option.some.injEq, reduceCtorEq] at h
  subst h
  unfold ApiEnv.backpressure
  split_ifs
  · exact .responded (by simp [Response.error])
  · exact opens_postJob hb

theorem Opens.serves (hp : Opens env request phase) {server server' : Server}
    (hx : server.txs i = none) (h : enter server i phase = some server') :
    server'.db = server.db ∧ Serves env request phase (server'.txs i) := by
  cases hp with
  | getStats =>
    obtain rfl := Option.some.inj h
    exact ⟨rfl, hx ▸ .getStats⟩
  | @transaction c hc =>
    obtain rfl : { server with txs := Function.update server.txs i (some ⟨c, .connect⟩) }
        = server' := by
      simpa only [enter, Server.step, hx, Option.some.injEq] using h
    refine ⟨rfl, ?_⟩
    simp only [Function.update_self]
    exact .transaction hc (by simp)
  | responded hr =>
    obtain rfl := Option.some.inj h
    exact ⟨rfl, .failed hr (by simp [hx])⟩

theorem serves_afterCall {c : ApiCall} (hc : env.call request = some c) (result : ApiResult) :
    Serves env request (afterCall c result) (some { call := c, phase := .done result }) := by
  rcases result with _ | _ | job
  · cases c <;> exact .failed (by simp [Response.error]) (by simp)
  · cases c with
    | createJob type payload => exact .failed (by simp [Response.error]) (by simp)
    | claimReplay id => exact .getJobById
  · cases c <;> exact .succeeded hc rfl

theorem enter_afterCall {c : ApiCall} {result : ApiResult} {server server' : Server}
    (h : enter server i (afterCall c result) = some server') : server' = server := by
  rcases result with _ | _ | job <;> cases c <;> exact (Option.some.inj h).symm

theorem serves_phaseOf {c : ApiCall} (hc : env.call request = some c) {server : Server}
    {phase : TxPhase} (hx : server.txs i = some { call := c, phase }) :
    Serves env request (phaseOf server i c) (server.txs i) := by
  rw [phaseOf, hx]
  cases phase with
  | done result => exact .returned hc
  | _ => exact .transaction hc (by simp)

theorem Opens.not_created (hp : Opens env request phase) :
    phase.created = false ∧ phase.replayed = false := by
  cases hp with
  | responded hr => exact Response.not_created hr
  | _ => exact ⟨rfl, rfl⟩

theorem afterCall_created (c : ApiCall) (result : ApiResult) :
    (afterCall c result).created = (RequestPhase.returned c result).created
      ∧ (afterCall c result).replayed = (RequestPhase.returned c result).replayed := by
  rcases result with _ | _ | job <;> cases c <;> exact ⟨rfl, rfl⟩

theorem returned_not_created (c : ApiCall) {result : ApiResult}
    (hr : ∀ job, result ≠ .returned (some job)) :
    (RequestPhase.returned c result).created = false
      ∧ (RequestPhase.returned c result).replayed = false := by
  rcases result with _ | _ | job
  · cases c <;> exact ⟨rfl, rfl⟩
  · cases c <;> exact ⟨rfl, rfl⟩
  · exact absurd rfl (hr job)

/-! ## Requests and calls in step -/

structure Inv (env : ApiEnv) (l : List Effect) (s : Api) : Prop where
  held : ∀ y tx, s.server.txs y = some tx → Server.Held s.server.db s.server.locks y tx
  effects : ∀ y, Server.Effects (l.map Effect.tables) y (s.server.txs y)
  absent : ∀ j, s.requests.length ≤ j → s.server.txs j = none
  serves : ∀ i q, s.requests[i]? = some q → Serves env q.request q.phase (s.server.txs i)

/-- The step commits the call of the request, which returns its row. -/
def Commits (s : Api) (i : ℕ) (q : RequestState) (a : ApiAction) (phase : RequestPhase)
    (server : Server) : Prop :=
  ∃ ok uuid c job event, a = .statement i ok uuid ∧ q.phase = .transaction c
    ∧ phase = .returned c (.returned (some job))
    ∧ s.server.txs i = some { call := c, phase := .commit (some (job, event)) }
    ∧ Server.install s.server.db c job event = some server.db

/-- The tables are as they were, and so is what the phase tells of success, or the call commits. -/
theorem Move.serves {a : ApiAction} {server : Server} (hm : Move env s i q a phase server)
    (hs : Serves env q.request q.phase (s.server.txs i)) :
    Serves env q.request phase (server.txs i)
      ∧ (server.db = s.server.db ∧ phase.created = q.phase.created
          ∧ phase.replayed = q.phase.replayed
        ∨ Commits s i q a phase server) := by
  cases hm with
  | snapshot hp =>
    rw [hp] at hs ⊢
    generalize s.server.txs i = o at hs ⊢
    cases hs
    exact ⟨.stats, .inl ⟨rfl, rfl, rfl⟩⟩
  | statsThrew hp =>
    rw [hp] at hs ⊢
    generalize s.server.txs i = o at hs ⊢
    cases hs
    exact ⟨.failed (by simp [Response.error]) (by simp), .inl ⟨rfl, rfl, rfl⟩⟩
  | resumed hr h =>
    rcases hp : q.phase with _ | n | _ | ⟨c, result⟩ | _ | _ <;>
      simp only [hp, resume, Option.some.injEq, reduceCtorEq] at hr <;> rw [hp] at hs
    · have ho := opens_afterStats hr
      have hx : s.server.txs i = none := by
        generalize s.server.txs i = o at hs
        cases hs
        rfl
      obtain ⟨hdb, hs⟩ := ho.serves hx h
      exact ⟨hs, .inl ⟨hdb, ho.not_created⟩⟩
    · subst hr
      rw [enter_afterCall h]
      generalize s.server.txs i = o at hs ⊢
      cases hs with
      | returned hc => exact ⟨serves_afterCall hc result, .inl ⟨rfl, afterCall_created c result⟩⟩
  | @statement c ok uuid _ hp h =>
    rw [hp] at hs
    cases Server.step_cases h with
    | @statement _ tx _ _ _ hx ho ht =>
      rw [hx] at hs
      cases hs with
      | @transaction _ txPhase hc hn =>
        rcases ht.tables with ⟨hdb, phase', hx', hr⟩ | ⟨job, event, hw, hi, hx'⟩
        · refine ⟨serves_phaseOf hc hx', .inl ⟨hdb, ?_⟩⟩
          rw [phaseOf, hx', hp]
          cases phase' with
          | done result => exact returned_not_created c fun job hj => hr job (hj ▸ rfl)
          | _ => exact ⟨rfl, rfl⟩
        · refine ⟨serves_phaseOf hc hx', .inr ⟨ok, uuid, c, job, event, rfl, hp, ?_, ?_, hi⟩⟩
          · rw [phaseOf, hx']
          · rw [hx, ← hw]
  | @read id ok hp =>
    rw [hp] at hs ⊢
    have hr : (if ok then replayRefused s.server.db.jobs id
        else Response.internalServerError).error ≠ none := by
      split_ifs
      · exact error_replayRefused _ _
      · simp [Response.error]
    generalize s.server.txs i = o at hs ⊢
    cases hs
    exact ⟨.failed hr (by simp), .inl ⟨rfl, Response.not_created hr⟩⟩

theorem Move.shown {a : ApiAction} {server : Server} (hm : Move env s i q a phase server) :
    shown s a t = [{ request := i, before := s, after := t }] := by
  cases hm <;> rfl

theorem getElem?_setPhase (hq : s.requests[i]? = some q) (phase : RequestPhase) (j : ℕ) :
    (s.setPhase i q phase).requests[j]? = if j = i then some { q with phase }
      else s.requests[j]? := by
  have hi : i < s.requests.length := (List.getElem?_eq_some_iff.1 hq).1
  rw [setPhase, List.getElem?_set]
  by_cases hj : j = i
  · simp [hj, hi]
  · simp [hj, Ne.symm hj]

/-- A step that is no request's leaves the calls as they are, and shows nothing. -/
theorem other_cases {a : ApiAction} {b : ServerAction} {server : Server} (ha : a.other = some b)
    (h : s.server.step b = some server) :
    server.txs = s.server.txs ∧ Server.shown s.server b server = [] ∧ shown s a t = [] := by
  cases a <;> simp only [ApiAction.other, Option.some.injEq, reduceCtorEq] at ha <;> subst ha <;>
    cases Server.step_cases h <;> exact ⟨rfl, rfl, rfl⟩

theorem Inv.step {l : List Effect} {a : ApiAction} (hI : Inv env l s)
    (h : step env s a = some t) : Inv env (l ++ shown s a t) t := by
  cases step_cases h with
  | @received request nowMs server he =>
    have ht := touches_of_enter he
    refine ⟨ht.held hI.held, fun y => ?_, fun j hj => ?_, fun j r hr => ?_⟩
    · rw [List.map_append]
      exact ht.effects hI.held hI.effects y
    · rw [List.length_append, List.length_singleton] at hj
      rw [ht.txs_of_ne (by omega)]
      exact hI.absent j (by omega)
    · simp only [List.getElem?_append] at hr
      split_ifs at hr with hj
      · rw [ht.txs_of_ne hj.ne]
        exact hI.serves j r hr
      · obtain ⟨hj', hr⟩ := List.getElem?_eq_some_iff.1 hr
        obtain rfl : j = s.requests.length := by
          rw [List.length_singleton] at hj'
          omega
        simp only [Nat.sub_self, List.getElem_cons_zero] at hr
        subst hr
        exact ((opens_receive _ _).serves (hI.absent _ le_rfl) he).2
  | @moved _ i q phase server hq hm =>
    have ht := hm.touches
    have hi : i < s.requests.length := (List.getElem?_eq_some_iff.1 hq).1
    rw [hm.shown]
    refine ⟨ht.held hI.held, fun y => ?_, fun j hj => ?_, fun j r hr => ?_⟩
    · rw [List.map_append]
      exact ht.effects hI.held hI.effects y
    · simp only [setPhase, List.length_set] at hj
      rw [ht.txs_of_ne (by omega)]
      exact hI.absent j hj
    · rw [getElem?_setPhase hq] at hr
      split_ifs at hr with hj
      · obtain rfl := Option.some.inj hr
        exact hj ▸ (hm.serves (hI.serves i q hq)).1
      · rw [ht.txs_of_ne hj]
        exact hI.serves j r hr
  | @ran _ b server ha hb =>
    obtain ⟨htx, hn, hl⟩ := other_cases ha hb
    rw [hl, List.append_nil]
    refine ⟨Server.held_step hI.held hb, fun y => ?_, ?_, ?_⟩
    · have := Server.effects_step hI.held hI.effects hb y
      rwa [hn, List.append_nil] at this
    · simp only [htx]
      exact hI.absent
    · simp only [htx]
      exact hI.serves

theorem inv_start (now : ℤ) (db : Db) (buckets : Buckets) : Inv env [] (start now db buckets) where
  held _ _ h := by simp [start] at h
  effects _ _ h := by simp at h
  absent _ _ := rfl
  serves _ _ h := by simp [start] at h

theorem Inv.db_of_receive {l : List Effect} (hI : Inv env l s) {nowMs : ℚ} {server : Server}
    (h : enter s.server s.requests.length (env.receive s.buckets request nowMs).2 = some server) :
    server.db = s.server.db :=
  ((opens_receive _ _).serves (hI.absent _ le_rfl) h).1

/-! ## Totals -/

/-- What the tables have gained since `d` is what the requests tell. -/
structure Gained (d : Db) (s : Api) : Prop where
  jobs : (DeadLetter.getStats s.server.db).totalJobs
    = (DeadLetter.getStats d).totalJobs + s.requests.countP (·.phase.created)
  replays : (DeadLetter.getStats s.server.db).totalReplays
    = (DeadLetter.getStats d).totalReplays + s.requests.countP (·.phase.replayed)
  events : s.server.db.outbox.events.rows.length = d.outbox.events.rows.length
    + s.requests.countP (·.phase.created) + s.requests.countP (·.phase.replayed)

theorem countP_setPhase (hq : s.requests[i]? = some q) (phase : RequestPhase)
    (p : RequestState → Bool) :
    (s.setPhase i q phase).requests.countP p + (if p q then 1 else 0)
      = s.requests.countP p + if p { q with phase } then 1 else 0 := by
  obtain ⟨hi, rfl⟩ := List.getElem?_eq_some_iff.1 hq
  have hpos : (if p s.requests[i] then 1 else 0) ≤ s.requests.countP p := by
    split_ifs with hp
    · exact List.countP_pos_iff.2 ⟨_, List.getElem_mem hi, hp⟩
    · exact Nat.zero_le _
  rw [setPhase, List.countP_set hi]
  omega

theorem install_gained {c : ApiCall} {job : Job} {event : OutboxEvent} {db db' : Db}
    {locks : Uuid → Option ℕ} (h : Server.install db c job event = some db')
    (hp : Server.Pending db locks i job c) :
    (DeadLetter.getStats db').totalJobs = (DeadLetter.getStats db).totalJobs
        + (if (RequestPhase.returned c (.returned (some job))).created then 1 else 0)
      ∧ (DeadLetter.getStats db').totalReplays = (DeadLetter.getStats db).totalReplays
        + (if (RequestPhase.returned c (.returned (some job))).replayed then 1 else 0)
      ∧ db'.outbox.events.rows = db.outbox.events.rows ++ [event] := by
  obtain ⟨-, he, hj⟩ := Server.install_eq_some h
  refine ⟨?_, ?_, (Table.insert_eq_some.1 he).2⟩
  · cases c with
    | createJob type payload =>
      simp [DeadLetter.getStats, RequestPhase.created, (Table.insert_eq_some.1 hj).2]
    | claimReplay id =>
      simp only at hj
      simp [DeadLetter.getStats, RequestPhase.created, hj, Table.length_replace]
  · cases c with
    | createJob type payload =>
      have hn : job.replayCount = 0 := by rw [show job = _ from hp]; rfl
      simp [DeadLetter.getStats, RequestPhase.replayed, (Table.insert_eq_some.1 hj).2, hn]
    | claimReplay id =>
      obtain ⟨-, j, hg, -, hs⟩ := hp
      have hid : job.id = j.id := by rw [← hs, JobUpdate.set_id]
      have hr : job.replayCount = j.replayCount + 1 := by rw [← hs]; rfl
      have hsum := Table.sum_replace (·.replayCount) (show db.jobs.get job.id = some j by
        rw [hid, Table.key_of_get hg, hg])
      simp only at hj
      simp only [DeadLetter.getStats, RequestPhase.replayed, hj, if_true]
      omega

theorem Gained.step {d : Db} {l : List Effect} {a : ApiAction} (hI : Inv env l s)
    (hG : Gained d s) (h : step env s a = some t) : Gained d t := by
  obtain ⟨hj, hr, he⟩ := hG
  cases step_cases h with
  | @received request nowMs server hs =>
    have ho : Opens env request (env.receive s.buckets request nowMs).2 := opens_receive _ _
    obtain ⟨hc, hp⟩ := ho.not_created
    constructor <;> simp only [hI.db_of_receive hs, List.countP_append, List.countP_singleton, hc,
      hp, Bool.false_eq_true, if_false, Nat.add_zero] <;> assumption
  | @moved _ i q phase server hq hm =>
    have hcount := fun p => countP_setPhase hq phase p
    have hc := hcount (·.phase.created)
    have hp := hcount (·.phase.replayed)
    simp only at hc hp
    rcases (hm.serves (hI.serves i q hq)).2 with ⟨hdb, hcr, hre⟩ | ⟨ok, uuid, c, job, event, -,
      htx, rfl, hx, hi⟩
    · rw [hcr] at hc
      rw [hre] at hp
      constructor <;> simp only [hdb] <;> omega
    · obtain ⟨hw, -⟩ := (hI.held i _ hx).written rfl
      obtain ⟨hj', hr', he'⟩ := install_gained hi hw
      have hone : (if (RequestPhase.returned c (.returned (some job))).created then 1 else 0)
          + (if (RequestPhase.returned c (.returned (some job))).replayed then 1 else 0) = 1 := by
        cases c <;> rfl
      have hn : q.phase.created = false ∧ q.phase.replayed = false := by
        rw [htx]
        exact ⟨rfl, rfl⟩
      simp only [hn, Bool.false_eq_true, if_false, Nat.add_zero] at hc hp
      constructor <;> simp only [he', List.length_append, List.length_singleton] <;> omega
  | @ran a b server ha hb =>
    cases a <;> simp only [ApiAction.other, Option.some.injEq, reduceCtorEq] at ha <;> subst ha <;>
      cases Server.step_cases hb
    · exact ⟨hj, hr, he⟩
    · rename_i hw
      have hm := Db.replayCounts_of_call hw
      have hl := congrArg List.length hm
      simp only [List.length_map] at hl
      refine ⟨hl.trans hj, (congrArg List.sum hm).trans hr, ?_⟩
      simp only [Db.outbox_of_call hw]
      exact he
    · rename_i hd
      obtain ⟨outbox, ho, rfl⟩ := Option.map_eq_some_iff.1 hd
      have hl := congrArg List.length (Outbox.jobIds_of_step ho)
      simp only [List.length_map] at hl
      exact ⟨hj, hr, hl.trans he⟩

/-! ## The limiter -/

/-- The buckets are what the limiter makes of the requests that get to it, in order, whichever the
route. -/
structure Metered (env : ApiEnv) (buckets : Buckets) (l : List Effect) (s : Api) : Prop where
  drawn : exec env.jobsRateLimiter.step buckets (s.requests.filterMap env.draw) = some s.buckets
  spared : ∀ i q, s.requests[i]? = some q → env.draw q = none →
    ∀ e ∈ l, e.request = i → e.after.buckets = e.before.buckets
  known : ∀ e ∈ l, e.request < s.requests.length
  unauthorized : ∀ q ∈ s.requests, q.phase = .responded .unauthorized → env.draw q = none

theorem receive_of_draw_none {buckets : Buckets} {nowMs : ℚ}
    (h : env.draw { request, nowMs, phase } = none) :
    (env.receive buckets request nowMs).1 = buckets := by
  unfold ApiEnv.draw at h
  unfold ApiEnv.receive
  split_ifs at h with hd
  split_ifs with hp hk
  · rfl
  · rfl
  · simp_all

theorem receive_of_draw {buckets : Buckets} {nowMs : ℚ} {r : RateLimiter.Request}
    (h : env.draw { request, nowMs, phase } = some r) :
    env.jobsRateLimiter.step buckets r = some (env.receive buckets request nowMs).1
      ∧ (env.receive buckets request nowMs).2 ≠ .responded .unauthorized := by
  unfold ApiEnv.draw at h
  split_ifs at h with hd
  obtain rfl := Option.some.inj h
  simp only [Bool.and_eq_true] at hd
  simp only [ApiEnv.receive, hd.1, hd.2, RateLimiter.step, Bool.not_true, Bool.false_eq_true,
    if_false]
  split
  · rename_i he
    exact ⟨by rw [he], by simp⟩
  · rename_i he _
    exact ⟨by rw [he], by simp⟩
  · rename_i id he _
    refine ⟨by rw [he], ?_⟩
    unfold ApiEnv.postReplay
    split <;> simp

theorem Move.not_unauthorized {a : ApiAction} {server : Server}
    (hm : Move env s i q a phase server) : phase ≠ .responded .unauthorized := by
  cases hm with
  | snapshot => simp
  | statsThrew => simp
  | resumed hr =>
    rcases hp : q.phase with _ | n | _ | ⟨c, result⟩ | _ | _ <;>
      simp only [hp, resume, Option.some.injEq, reduceCtorEq] at hr
    · rcases hb : q.request.route with body | id <;>
        simp only [hb, ApiEnv.afterStats, Option.some.injEq, reduceCtorEq] at hr
      subst hr
      unfold ApiEnv.backpressure ApiEnv.postJob
      split_ifs
      · simp
      · split <;> simp
    · subst hr
      unfold afterCall
      split <;> simp
  | statement =>
    unfold phaseOf
    split <;> simp
  | @read id ok =>
    cases ok
    · simp
    · simp only [replayRefused, if_true]
      split <;> simp

theorem filterMap_setPhase (hq : s.requests[i]? = some q) (phase : RequestPhase) :
    (s.setPhase i q phase).requests.filterMap env.draw = s.requests.filterMap env.draw := by
  obtain ⟨hi, rfl⟩ := List.getElem?_eq_some_iff.1 hq
  rw [setPhase, List.set_eq_take_append_cons_drop, if_pos hi]
  conv_rhs => rw [← List.take_append_drop i s.requests, List.drop_eq_getElem_cons hi]
  simp only [List.filterMap_append, List.filterMap_cons]
  rfl

section Metered

variable {buckets : Buckets} {l : List Effect}

theorem Metered.receive (hM : Metered env buckets l s) {request : HttpRequest} {nowMs : ℚ}
    (hb : t.buckets = (env.receive s.buckets request nowMs).1)
    (hr : t.requests = s.requests
      ++ [{ request, nowMs, phase := (env.receive s.buckets request nowMs).2 }]) :
    Metered env buckets (l ++ [{ request := s.requests.length, before := s, after := t }]) t := by
  refine ⟨?_, fun j q hq hn e he hj => ?_, fun e he => ?_, fun q hq hp => ?_⟩
  · rw [hr, List.filterMap_append, exec_append]
    refine ⟨_, hM.drawn, ?_⟩
    rcases hd : env.draw { request, nowMs, phase := (env.receive s.buckets request nowMs).2 }
      with _ | d
    · simp only [List.filterMap_cons, hd, List.filterMap_nil, exec]
      rw [hb, receive_of_draw_none hd]
    · simp only [List.filterMap_cons, hd, List.filterMap_nil, exec_singleton]
      rw [hb, (receive_of_draw hd).1]
  · rw [hr, List.getElem?_append] at hq
    rcases List.mem_append.1 he with he | he
    · have := hM.known e he
      rw [if_pos (by omega)] at hq
      exact hM.spared j q hq hn e he hj
    · obtain rfl := List.mem_singleton.1 he
      obtain rfl : s.requests.length = j := hj
      simp only [lt_irrefl, if_false, Nat.sub_self, List.getElem?_cons_zero,
        Option.some.injEq] at hq
      subst hq
      exact hb.trans (receive_of_draw_none hn)
  · rw [hr, List.length_append, List.length_singleton]
    rcases List.mem_append.1 he with he | he
    · exact Nat.lt_succ_of_lt (hM.known e he)
    · obtain rfl := List.mem_singleton.1 he
      exact Nat.lt_succ_self _
  · rw [hr] at hq
    rcases List.mem_append.1 hq with hq | hq
    · exact hM.unauthorized q hq hp
    · obtain rfl := List.mem_singleton.1 hq
      by_contra hn
      obtain ⟨d, hd⟩ := Option.ne_none_iff_exists'.1 hn
      exact (receive_of_draw hd).2 hp

theorem Metered.move (hM : Metered env buckets l s) (hq : s.requests[i]? = some q)
    (hp : phase ≠ .responded .unauthorized) (hb : t.buckets = s.buckets)
    (hr : t.requests = (s.setPhase i q phase).requests) :
    Metered env buckets (l ++ [{ request := i, before := s, after := t }]) t := by
  refine ⟨?_, fun j r hj hn e he hi => ?_, fun e he => ?_, fun r hm hu => ?_⟩
  · rw [hr, filterMap_setPhase hq, hb]
    exact hM.drawn
  · rcases List.mem_append.1 he with he | he
    · rw [hr, getElem?_setPhase hq] at hj
      split_ifs at hj with hji
      · obtain rfl := Option.some.inj hj
        exact hM.spared i q hq hn e he (hi.trans hji)
      · exact hM.spared j r hj hn e he hi
    · obtain rfl := List.mem_singleton.1 he
      exact hb
  · rw [hr, setPhase, List.length_set]
    rcases List.mem_append.1 he with he | he
    · exact hM.known e he
    · obtain rfl := List.mem_singleton.1 he
      exact (List.getElem?_eq_some_iff.1 hq).1
  · rw [hr] at hm
    rcases List.mem_or_eq_of_mem_set hm with hm | rfl
    · exact hM.unauthorized r hm hu
    · exact absurd hu hp

theorem Metered.step {a : ApiAction} (hM : Metered env buckets l s)
    (h : step env s a = some t) : Metered env buckets (l ++ shown s a t) t := by
  cases step_cases h with
  | received => exact hM.receive rfl rfl
  | moved hq hm =>
    rw [hm.shown]
    exact hM.move hq hm.not_unauthorized rfl rfl
  | ran ha hb =>
    rw [(other_cases ha hb).2.2, List.append_nil]
    exact ⟨hM.drawn, hM.spared, hM.known, hM.unauthorized⟩

end Metered

/-! ## What is added is pending -/

def AddsPending (l : List Effect) : Prop :=
  ∀ e ∈ l, ∀ event, e.after.server.db.outbox.events.rows
    = e.before.server.db.outbox.events.rows ++ [event] → event.publishedAt = none

theorem AddsPending.step {l : List Effect} {a : ApiAction} (hI : Inv env l s)
    (hA : AddsPending l) (h : step env s a = some t) : AddsPending (l ++ shown s a t) := by
  have hsame : ∀ {rows : List OutboxEvent} {event : OutboxEvent}, rows ≠ rows ++ [event] := by
    intro rows event he
    simpa using congrArg List.length he
  intro e he event hrows
  rcases List.mem_append.1 he with he | he
  · exact hA e he event hrows
  cases step_cases h with
  | @received request nowMs server hs =>
    obtain rfl := List.mem_singleton.1 he
    simp only [hI.db_of_receive hs] at hrows
    exact absurd hrows hsame
  | @moved _ i q phase server hq hm =>
    rw [hm.shown] at he
    obtain rfl := List.mem_singleton.1 he
    rcases (hm.serves (hI.serves i q hq)).2 with ⟨hdb, -⟩ | ⟨-, -, c, job, event', -, -, -, hx, hi⟩
    · simp only [hdb] at hrows
      exact absurd hrows hsame
    · obtain ⟨hw, hev⟩ := (hI.held i _ hx).written rfl
      obtain ⟨-, -, he'⟩ := install_gained hi hw
      simp only [he', List.append_cancel_left_eq, List.cons.injEq, and_true] at hrows
      rw [← hrows, hev]
      rfl
  | @ran _ b server ha hb =>
    rw [(other_cases ha hb).2.2] at he
    simp at he

/-! ## Accounted -/

/-- One step of the request shows in the tables, and it puts in the row and one event, which is
pending. -/
def Recorded (l : List Server.Effect) (i : ℕ) (c : ApiCall) (job : Job) : Prop :=
  ∃ l₁ e l₂ event, l = l₁ ++ e :: l₂ ∧ e.tx = i ∧ Server.Quiet (l₁ ++ l₂) i
    ∧ Server.Installed c job e.before e.after
    ∧ e.after.outbox.events.rows = e.before.outbox.events.rows ++ [event]
    ∧ event.jobId = job.id ∧ event.publishedAt = none

/-- The responses tell what was done to the tables and to the buckets, `l` being the steps of the
requests. -/
structure Accounted (env : ApiEnv) (l : List Effect) (s₀ s : Api) : Prop where
  created : (DeadLetter.getStats s.server.db).totalJobs
    = (DeadLetter.getStats s₀.server.db).totalJobs + s.responses.countP (·.status = 201)
  replayed : (DeadLetter.getStats s.server.db).totalReplays
    = (DeadLetter.getStats s₀.server.db).totalReplays + s.responses.countP (·.status = 200)
  events : s.server.db.outbox.events.rows.length = s₀.server.db.outbox.events.rows.length
    + s.responses.countP (·.status = 201) + s.responses.countP (·.status = 200)
  /-- The call a request is for was made, and returned the row that the response tells of. -/
  recorded : ∀ i q r, s.requests[i]? = some q → q.phase = .responded r →
    r.status = 201 ∨ r.status = 200 → ∃ c job, env.call q.request = some c
      ∧ afterCall c (.returned (some job)) = .responded r
      ∧ Recorded (l.map Effect.tables) i c job
  unchanged : ∀ i q r, s.requests[i]? = some q → q.phase = .responded r →
    ¬(r.status = 201 ∨ r.status = 200) → Server.Quiet (l.map Effect.tables) i
  unauthorized : ∀ i q r, s.requests[i]? = some q → q.phase = .responded r → r.status = 401 →
    ∀ e ∈ l, e.request = i → e.after.buckets = e.before.buckets
  /-- Both routes draw on one limiter. -/
  shared : exec env.jobsRateLimiter.step s₀.buckets (s.requests.filterMap env.draw)
    = some s.buckets

theorem countP_responses (hall : ∀ q ∈ s.requests, q.Answered) :
    s.responses.countP (·.status = 201) = s.requests.countP (·.phase.created)
      ∧ s.responses.countP (·.status = 200) = s.requests.countP (·.phase.replayed) := by
  simp only [responses, List.countP_filterMap]
  constructor <;>
  · refine List.countP_congr fun q hq => ?_
    obtain ⟨r, hr⟩ := hall q hq
    rw [hr]
    cases r <;> simp [Response.status, RequestPhase.created, RequestPhase.replayed]

theorem recorded_of_added {l : List Effect} {c : ApiCall} {job : Job}
    (h : Server.Added (l.map Effect.tables) i c job) (hA : AddsPending l) :
    Recorded (l.map Effect.tables) i c job := by
  obtain ⟨l₁, e, l₂, hl, hi, hq, hins⟩ := h
  obtain ⟨event, hj, -, he⟩ := hins.1
  have hmem : e ∈ l.map Effect.tables := by simp [hl]
  obtain ⟨e', he', rfl⟩ := List.mem_map.1 hmem
  exact ⟨l₁, _, l₂, event, hl, hi, hq, hins, he, hj, hA e' he' event he⟩

/-- In every run, from any tables and any buckets, of requests with any headers, ids and bodies,
whichever of their statements fail, and of worker and dispatcher steps: once all have been answered,
the tables have changed just as the responses of success say. -/
theorem responses_accounted {now : ℤ} {db : Db} {buckets : Buckets} {as : List ApiAction}
    (h : exec (step env) (start now db buckets) as = some s)
    (hall : ∀ q ∈ s.requests, q.Answered) :
    Accounted env (trace (step env) shown (start now db buckets) as)
      (start now db buckets) s := by
  let I := fun l s => Inv env l s ∧ Gained db s ∧ Metered env buckets l s ∧ AddsPending l
  have hstep : ∀ l s a t, I l s → step env s a = some t → I (l ++ shown s a t) t :=
    fun l s a t ⟨hI, hG, hM, hA⟩ h => ⟨hI.step h, hG.step hI h, hM.step h, hA.step hI h⟩
  obtain ⟨hI, hG, hM, hA⟩ := exec_trace_inv hstep
    ⟨inv_start now db buckets, ⟨rfl, rfl, rfl⟩, ⟨rfl, by simp [start], by simp, by simp [start]⟩,
      by simp [AddsPending]⟩ h
  obtain ⟨hc, hr⟩ := countP_responses hall
  refine ⟨hc ▸ hG.jobs, hr ▸ hG.replays, hc ▸ hr ▸ hG.events, fun i q r hq hp hok => ?_,
    fun i q r hq hp hno => ?_, fun i q r hq hp h401 => ?_, hM.drawn⟩
  · have hs := hI.serves i q hq
    have he := hI.effects i
    rw [hp] at hs
    generalize s.server.txs i = o at hs he
    cases hs with
    | failed hr => exact absurd (Response.error_eq_none.2 hok) hr
    | succeeded hc hr => exact ⟨_, _, hc, hr, recorded_of_added he hA⟩
  · have hs := hI.serves i q hq
    have he := hI.effects i
    rw [hp] at hs
    generalize s.server.txs i = o at hs he
    cases hs with
    | failed _ ho => exact Server.Effects.quiet_of_ne he ho
    | @succeeded c job _ _ hr =>
      cases c <;> obtain rfl := RequestPhase.responded.inj hr <;> simp [Response.status] at hno
  · obtain rfl : r = .unauthorized := by cases r <;> simp [Response.status] at h401 ⊢
    exact hM.spared i q hq (hM.unauthorized q (List.mem_of_getElem? hq) hp)

def devEnv : ApiEnv where
  production := false
  apiKey := some "key"
  backpressureThreshold := 0
  jobsRateLimiter := ⟨100, 60, by decide, by decide⟩
  record payload := payload.filter fun field => field.1 ≠ "__proto__"
  jobIdParamSchema id := if id = "5" then some 5 else none

/-- One job, dead-lettered. -/
def buried : Db where
  jobs := ⟨[{ newJob 0 5 "email" [] with status := .deadLettered }], by decide⟩
  outbox := { events := Table.empty, runs := fun _ => none }

def post (apiKey : Option String) (route : JobsRoute) : HttpRequest :=
  { parses := true, apiKey, testClientId := none, ip := some "10.0.0.1", route }

/-- Two replays of one job race; a job is created meanwhile, and two requests are refused. -/
def racingRequests : List ApiAction :=
  [.receive (post (some "key") (.replay "5")) 0, .receive (post (some "key") (.replay "5")) 0,
    .receive (post (some "key") (.create (some ⟨.string "email", .object []⟩))) 0,
    .receive (post none (.replay "5")) 0, .receive (post (some "key") (.replay "6")) 0,
    .getStats 2 true, .statement 0 true 0, .statement 1 true 0, .statement 0 true 0,
    .statement 1 true 0, .statement 0 true 0, .resume 2, .statement 2 true 0, .statement 0 true 8,
    .statement 2 true 0, .statement 0 true 0, .statement 1 true 0, .statement 1 true 0,
    .statement 2 true 6, .statement 2 true 9, .resume 1, .getJobById 1 true,
    .statement 2 true 0, .resume 2, .resume 0]

theorem responses_accounted_racingRequests : ∃ s,
    exec (step devEnv) (start 3 buried fun _ => none) racingRequests = some s
      ∧ s.responses.map (·.status) = [200, 409, 201, 401, 400]
      ∧ Accounted devEnv (trace (step devEnv) shown (start 3 buried fun _ => none) racingRequests)
        (start 3 buried fun _ => none) s := by
  have hrun : (exec (step devEnv) (start 3 buried fun _ => none) racingRequests).map
      (fun s => (s.responses.map (·.status), decide (∀ q ∈ s.requests, q.Answered)))
      = some ([200, 409, 201, 401, 400], true) := by decide +kernel
  obtain ⟨s, hs, hr⟩ := Option.map_eq_some_iff.1 hrun
  obtain ⟨hr, hall⟩ := Prod.mk.inj hr
  exact ⟨s, hs, hr, responses_accounted hs (of_decide_eq_true hall)⟩

end Api

end DeadLetter
