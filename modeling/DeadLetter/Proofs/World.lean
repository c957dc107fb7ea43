import DeadLetter.World
import DeadLetter.Proofs.Db

/-!
# The steps of a worker

What each step does to its worker and to the queues (`HandlerStep`), and what the steps of the
system do to the jobs table: each makes one call on it at most.
-/

namespace DeadLetter

open Transition

namespace Worker

variable (now : ℤ) (time : ℕ) (jobs : Jobs) (wk : Worker)

/-- What a step of a handler on `msg` does, by its phase and by what its await came to. -/
inductive HandlerStep (msg : JobCreatedMessage) : HandlerPhase → HandlerAction → Handled → Prop
  | claimed {job : Job} (hj : (claimJob now jobs msg.jobId).2 = some job) :
      HandlerStep msg .claimJob (.claimJob .ok)
        { worker := { dbErrorCount := 0, handler := some ⟨msg, .processJob job⟩ } }
  | notClaimed (hj : (claimJob now jobs msg.jobId).2 = none) :
      HandlerStep msg .claimJob (.claimJob .ok)
        { worker := { dbErrorCount := 0, handler := some ⟨msg, .getJobById⟩ } }
  | claimThrew {reply : Reply} (hr : reply ≠ .ok) :
      HandlerStep msg .claimJob (.claimJob reply) { worker := wk.backoffBeforeRequeue time msg }
  | read : HandlerStep msg .getJobById .getJobById { worker := wk.go msg .ack }
  | processed {job : Job} :
      HandlerStep msg (.processJob job) .processJob
        { worker := wk.go msg (.record job (outcomeOf job (DeadLetter.processJob job))) }
  | recorded {job row : Job} {outcome : Outcome}
      (hj : (Call.run jobs ⟨msg.jobId, now, outcome.op⟩).2 = some row) :
      HandlerStep msg (.record job outcome) (.record .ok)
        { worker := wk.go msg (afterRecord outcome) }
  | recordThrew {job : Job} {outcome : Outcome} {reply : Reply}
      (hj : reply = .ok → (Call.run jobs ⟨msg.jobId, now, outcome.op⟩).2 = none) :
      HandlerStep msg (.record job outcome) (.record reply)
        { worker := wk.backoffBeforeRequeue time msg }
  | publishedRetry {delayMs : ℕ} {b : Bool} :
      HandlerStep msg (.publishRetry delayMs) (.publish true b)
        { worker := wk.go msg .ack, retry := [(msg, time + delayMs)] }
  | retryThrew {delayMs : ℕ} {b : Bool} :
      HandlerStep msg (.publishRetry delayMs) (.publish false b)
        { worker := wk.backoffBeforeRequeue time msg
          retry := if b then [(msg, time + delayMs)] else [] }
  | publishedDeadLetter {b : Bool} :
      HandlerStep msg .publishDeadLetter (.publish true b)
        { worker := wk.go msg .ack, dlq := [msg] }
  | deadLetterThrew {b : Bool} :
      HandlerStep msg .publishDeadLetter (.publish false b)
        { worker := wk.backoffBeforeRequeue time msg, dlq := if b then [msg] else [] }
  | requeued {wakeAt : ℕ} (ht : wakeAt ≤ time) :
      HandlerStep msg (.backoff wakeAt) .requeue
        { worker := { wk with handler := none }, main := [msg] }
  | acked : HandlerStep msg .ack .ack { worker := { wk with handler := none } }

variable {now time jobs wk}

theorem step_cases {a : HandlerAction} {h : Handled} {msg : JobCreatedMessage}
    {phase : HandlerPhase} (hh : wk.handler = some ⟨msg, phase⟩)
    (hs : wk.step now time jobs a = some h) : HandlerStep now time jobs wk msg phase a h := by
  unfold Worker.step at hs
  simp only [hh] at hs
  cases phase with
  | claimJob =>
    cases a with
    | claimJob reply =>
      cases reply with
      | ok =>
        rcases hj : (claimJob now jobs msg.jobId).2 with _ | job <;>
          simp only [hj, Option.some.injEq] at hs <;> subst hs
        · exact .notClaimed hj
        · exact .claimed hj
      | _ =>
        simp only [Option.some.injEq] at hs
        subst hs
        exact .claimThrew (by simp)
    | _ => simp at hs
  | getJobById =>
    cases a <;> simp only [Option.some.injEq, reduceCtorEq] at hs
    subst hs
    exact .read
  | processJob job =>
    cases a <;> simp only [Option.some.injEq, reduceCtorEq] at hs
    subst hs
    exact .processed
  | record job outcome =>
    cases a with
    | record reply =>
      cases reply with
      | ok =>
        rcases hj : (Call.run jobs ⟨msg.jobId, now, outcome.op⟩).2 with _ | row <;>
          simp only [hj, Option.some.injEq] at hs <;> subst hs
        · exact .recordThrew fun _ => hj
        · exact .recorded hj
      | _ =>
        simp only [Option.some.injEq] at hs
        subst hs
        exact .recordThrew (by simp)
    | _ => simp at hs
  | publishRetry delayMs =>
    cases a <;> simp only [Option.some.injEq, reduceCtorEq] at hs
    rename_i ok b
    subst hs
    cases ok
    · exact .retryThrew
    · exact .publishedRetry
  | publishDeadLetter =>
    cases a <;> simp only [Option.some.injEq, reduceCtorEq] at hs
    rename_i ok b
    subst hs
    cases ok
    · exact .deadLetterThrew
    · exact .publishedDeadLetter
  | backoff wakeAt =>
    cases a <;> simp only [reduceCtorEq] at hs
    split_ifs at hs with ht
    obtain rfl := Option.some.inj hs
    exact .requeued ht
  | ack =>
    cases a <;> simp only [Option.some.injEq, reduceCtorEq] at hs
    subst hs
    exact .acked

theorem handler_of_step {a : HandlerAction} {h : Handled} (hs : wk.step now time jobs a = some h) :
    ∃ msg phase, wk.handler = some ⟨msg, phase⟩ ∧ HandlerStep now time jobs wk msg phase a h := by
  rcases hh : wk.handler with _ | ⟨msg, phase⟩
  · simp [Worker.step, hh] at hs
  · exact ⟨msg, phase, rfl, step_cases hh hs⟩

theorem call_cases {a : HandlerAction} {c : Call} (h : wk.call now a = some c) :
    (∃ msg reply, wk.handler = some ⟨msg, .claimJob⟩ ∧ a = .claimJob reply
        ∧ reply.executed = true ∧ c = ⟨msg.jobId, now, .claimJob⟩)
      ∨ ∃ msg job outcome reply, wk.handler = some ⟨msg, .record job outcome⟩ ∧ a = .record reply
        ∧ reply.executed = true ∧ c = ⟨msg.jobId, now, outcome.op⟩ := by
  unfold Worker.call at h
  rcases hh : wk.handler with _ | ⟨msg, phase⟩ <;> simp only [hh, reduceCtorEq] at h
  cases phase with
  | claimJob =>
    cases a with
    | claimJob reply =>
      simp only at h
      split_ifs at h with hx
      exact .inl ⟨msg, reply, rfl, rfl, hx, (Option.some.inj h).symm⟩
    | _ => simp at h
  | record job outcome =>
    cases a with
    | record reply =>
      simp only at h
      split_ifs at h with hx
      exact .inr ⟨msg, job, outcome, reply, rfl, rfl, hx, (Option.some.inj h).symm⟩
    | _ => simp at h
  | _ => simp at h

theorem call_isApi {a : HandlerAction} {c : Call} (h : wk.call now a = some c) :
    c.op.isApi = false := by
  rcases call_cases h with ⟨_, _, _, _, _, rfl⟩ | ⟨_, _, outcome, _, _, _, _, rfl⟩
  · rfl
  · cases outcome <;> rfl

end Worker

/-- Every outcome's statement asks for `PROCESSING`. -/
theorem Outcome.update (outcome : Outcome) (now : ℤ) :
    ∃ u, outcome.op.update now = some u ∧ ∀ j, u.cond j = true ↔ j.status = .processing := by
  cases outcome with
  | completed => exact ⟨markCompletedUpdate now, rfl, fun j => decide_eq_true_iff⟩
  | deadLettered m b => exact ⟨markDeadLetteredUpdate now m, rfl, fun j => decide_eq_true_iff⟩
  | retrying m d => exact ⟨markRetryingUpdate now m, rfl, fun j => decide_eq_true_iff⟩

namespace World

variable {s t : World} {w : ℕ} {k : Uuid}

inductive WorldStep (s : World) : WorldAction → World → Prop
  | passed {elapsedMs : ℕ} {now : ℤ} :
      WorldStep s (.pass elapsedMs now) { s with now, time := s.time + elapsedMs }
  | committed {c : Call} {eventId : Uuid} {db : Db} (ha : c.op.isApi = true)
      (hc : s.db.commit c eventId = some db) : WorldStep s (.commit c eventId) { s with db }
  | dispatched {r : ℕ} {a : OutboxAction} {outbox : Outbox}
      (ho : s.db.outbox.step s.now r a = some outbox) :
      WorldStep s (.dispatch r a)
        { s with db := { s.db with outbox }, main := s.main ++ s.enqueued r a }
  | expired {msg : JobCreatedMessage} {expiresAt : ℕ} {retry : List (JobCreatedMessage × ℕ)}
      (hr : s.retry = (msg, expiresAt) :: retry) (ht : expiresAt ≤ s.time) :
      WorldStep s .expire { s with retry, main := s.main ++ [msg] }
  | delivered {w : ℕ} {msg : JobCreatedMessage} (hm : msg ∈ s.main)
      (hw : (s.workers w).handler = none) :
      WorldStep s (.deliver w msg)
        { s with
          main := s.main.erase msg
          workers := Function.update s.workers w ((s.workers w).go msg .claimJob) }
  | worked {w : ℕ} {a : HandlerAction} {hd : Handled}
      (hs : (s.workers w).step s.now s.time s.db.jobs a = some hd) :
      WorldStep s (.work w a)
        (World.handled { s with db := afterCall s.db ((s.workers w).call s.now a) } w hd)
  | crashed {w : ℕ} : WorldStep s (.crash w) (s.handled w (s.workers w).crash)

theorem step_cases {a : WorldAction} (h : s.step a = some t) : WorldStep s a t := by
  cases a with
  | pass elapsedMs now => exact Option.some.inj h ▸ .passed
  | commit c eventId =>
    obtain ⟨db, hdb, rfl⟩ := Option.map_eq_some_iff.1 h
    simp only [Db.step] at hdb
    split_ifs at hdb with ha
    exact .committed ha hdb
  | dispatch r a =>
    obtain ⟨db, hdb, rfl⟩ := Option.map_eq_some_iff.1 h
    obtain ⟨outbox, ho, rfl⟩ := Option.map_eq_some_iff.1 hdb
    exact .dispatched ho
  | expire =>
    simp only [step] at h
    split at h
    · rename_i hr
      split_ifs at h with ht
      exact Option.some.inj h ▸ .expired hr ht
    · simp at h
  | deliver w msg =>
    simp only [step] at h
    split_ifs at h with hc
    exact Option.some.inj h ▸ .delivered hc.1 hc.2
  | work w a =>
    obtain ⟨hd, hs, rfl⟩ := Option.map_eq_some_iff.1 h
    exact .worked hs
  | crash w => exact Option.some.inj h ▸ .crashed

theorem step_refines {a : WorldAction} (h : s.step a = some t) :
    ∃ bs, exec Db.step s.db bs = some t.db := by
  cases step_cases h with
  | @committed c eventId db ha hc =>
    refine ⟨[.commit c eventId], exec_singleton.2 ?_⟩
    simp only [Db.step, ha, if_true, hc]
  | @dispatched r a outbox ho =>
    refine ⟨[.dispatch s.now r a], exec_singleton.2 ?_⟩
    simp only [Db.step, ho, Option.map_some]
  | @worked w a hd =>
    rcases hc : (s.workers w).call s.now a with _ | c
    · exact ⟨[], rfl⟩
    · refine ⟨[.call c], exec_singleton.2 ?_⟩
      simp [Db.step, Worker.call_isApi hc, afterCall, handled]
  | _ => exact ⟨[], rfl⟩

theorem exec_refines_db {as : List WorldAction} (h : exec step init as = some s) :
    ∃ bs, exec Db.step Db.init bs = some s.db :=
  exec_refines (I := fun _ => True) (·.db) (fun _ _ _ _ _ => trivial)
    (fun _ _ _ _ => step_refines) trivial h

/-- A step makes one call on the jobs table, or leaves it as it is. -/
theorem jobs_of_step {a : WorldAction} (h : s.step a = some t) :
    (s.shown a t = [] ∧ t.db.jobs = s.db.jobs) ∨ ∃ e, s.shown a t = [e]
      ∧ t.db.jobs = (e.call.run s.db.jobs).1 ∧ e.wrote = e.call.succeeds s.db.jobs := by
  cases step_cases h with
  | committed ha hc =>
    obtain ⟨-, -, hj, -⟩ := Db.commit_eq_some hc
    exact .inr ⟨_, rfl, hj, rfl⟩
  | @worked w a hd =>
    rcases hc : (s.workers w).call s.now a with _ | c
    · exact .inl ⟨by simp [shown, hc], rfl⟩
    · exact .inr ⟨_, by simp [shown, hc]; rfl, rfl, rfl⟩
  | _ => exact .inl ⟨rfl, rfl⟩

theorem wrote_of_shown {a : WorldAction} (h : s.step a = some t) {e : Entry}
    (he : e ∈ s.shown a t) : e.wrote = e.call.succeeds s.db.jobs := by
  rcases jobs_of_step h with ⟨hn, -⟩ | ⟨e', he', -, hw⟩
  · simp [hn] at he
  · rw [he', List.mem_singleton] at he
    rw [he, hw]

/-- A step leaves the row of job `k` as it is, or its call writes it. -/
theorem row_cases {a : WorldAction} (h : s.step a = some t) (k : Uuid) :
    (t.db.jobs.get k = s.db.jobs.get k ∧ ∀ e ∈ s.shown a t, e.wrote = true → e.call.id ≠ k)
      ∨ ∃ e j, s.shown a t = [e] ∧ e.wrote = true ∧ e.call.id = k
        ∧ t.db.jobs.get k = some j ∧ Writes e.call (s.db.jobs.get k) j := by
  rcases jobs_of_step h with ⟨hn, ht⟩ | ⟨e, he, ht, hw⟩
  · exact .inl ⟨by rw [ht], by simp [hn]⟩
  · rcases hr : (e.call.run s.db.jobs).2 with _ | j
    · refine .inl ⟨by rw [ht, Call.run_of_none hr], fun e' he' hw' => ?_⟩
      rw [he, List.mem_singleton] at he'
      rw [he', hw, Call.succeeds, hr] at hw'
      exact absurd hw' (by simp)
    · obtain ⟨hwr, hg⟩ := Call.writes hr
      by_cases hk : k = e.call.id
      · subst hk
        exact .inr ⟨e, j, he, by rw [hw, Call.succeeds, hr]; rfl, rfl, by rw [ht, hg, if_pos rfl],
          hwr⟩
      · refine .inl ⟨by rw [ht, hg, if_neg hk], fun e' he' _ => ?_⟩
        rw [he, List.mem_singleton] at he'
        exact he' ▸ Ne.symm hk

theorem written_row {a : WorldAction} (h : s.step a = some t) {e : Entry} (he : e ∈ s.shown a t)
    (hw : e.wrote = true) :
    ∃ j, t.db.jobs.get e.call.id = some j ∧ Writes e.call (s.db.jobs.get e.call.id) j := by
  rcases row_cases h e.call.id with ⟨-, hn⟩ | ⟨e', j, he', -, -, hj, hwr⟩
  · exact absurd rfl (hn e he hw)
  · rw [he', List.mem_singleton] at he
    subst he
    exact ⟨j, hj, hwr⟩

theorem get_of_step {a : WorldAction} (h : s.step a = some t)
    (hn : ∀ e ∈ s.shown a t, e.wrote = true → e.call.id ≠ k) :
    t.db.jobs.get k = s.db.jobs.get k := by
  rcases row_cases h k with ⟨ht, -⟩ | ⟨e, j, he, hw, hk, -⟩
  · exact ht
  · exact absurd hk (hn e (by simp [he]) hw)

theorem shown_cases {a : WorldAction} (h : s.step a = some t) {e : Entry}
    (he : e ∈ s.shown a t) : (∃ eventId, a = .commit e.call eventId ∧ e.worker = none
        ∧ e.call.op.isApi = true)
      ∨ ∃ w a', a = .work w a' ∧ e.worker = some w ∧ (s.workers w).call s.now a' = some e.call
        ∧ e.replied = a'.replied := by
  cases step_cases h with
  | @committed c eventId db ha hc =>
    obtain rfl := List.mem_singleton.1 he
    exact .inl ⟨eventId, rfl, rfl, ha⟩
  | @worked w a hd =>
    obtain ⟨c, hc, rfl⟩ := List.mem_map.1 he
    exact .inr ⟨w, a, rfl, rfl, Option.mem_toList.1 hc, rfl⟩
  | _ => simp [shown] at he

def mover : WorldAction → Option ℕ
  | .deliver w _ | .work w _ | .crash w => some w
  | _ => none

/-- A step moves one worker at most. -/
theorem workers_of_step {a : WorldAction} (h : s.step a = some t) (hw : mover a ≠ some w) :
    t.workers w = s.workers w := by
  have hne : ∀ {v}, mover a = some v → w ≠ v := fun hv hwv => hw (hwv ▸ hv)
  cases step_cases h with
  | delivered => exact Function.update_of_ne (hne rfl) _ _
  | worked => exact Function.update_of_ne (hne rfl) _ _
  | crashed => exact Function.update_of_ne (hne rfl) _ _
  | _ => rfl

/-- A worker that no step of a run moves is as it was. -/
theorem workers_of_exec : ∀ {as : List WorldAction} {s t : World}, exec step s as = some t →
    (∀ a ∈ as, mover a ≠ some w) → t.workers w = s.workers w
  | [], s, t, h, _ => by
    simp only [exec, Option.some.injEq] at h
    rw [h]
  | a :: as, s, t, h, hw => by
    obtain ⟨u, hu, ht⟩ := exec_cons.1 h
    rw [workers_of_exec ht fun b hb => hw b (List.mem_cons_of_mem _ hb),
      workers_of_step hu (hw a (List.mem_cons_self ..))]

/-- Where only worker 0 has moved, no other has a handler. -/
theorem idle_of_exec {as : List WorldAction} (h : exec step init as = some s)
    (ha : ∀ a ∈ as, ∀ w ∈ mover a, w = 0) (h0 : (s.workers 0).handler = none) (w : ℕ) :
    (s.workers w).handler = none := by
  by_cases hw : w = 0
  · rw [hw, h0]
  · rw [workers_of_exec h fun a has hm => hw (ha a has w hm)]
    rfl

/-- A worker is active that was so, on the same message, or whose claim has just returned its
job. -/
theorem active_of_step {a : WorldAction} (h : s.step a = some t) {job : Job}
    (ha : (t.workers w).active = some job) :
    ((s.workers w).active = some job
        ∧ (t.workers w).handler.map (·.msg) = (s.workers w).handler.map (·.msg)
        ∧ ∀ e ∈ s.shown a t, e.worker ≠ some w)
      ∨ a = .work w (.claimJob .ok) ∧ ∃ msg, (s.workers w).handler = some ⟨msg, .claimJob⟩
        ∧ (t.workers w).handler = some ⟨msg, .processJob job⟩
        ∧ (claimJob s.now s.db.jobs msg.jobId).2 = some job := by
  by_cases hw : mover a = some w
  swap
  · rw [workers_of_step h hw] at ha ⊢
    refine .inl ⟨ha, rfl, fun e he hew => ?_⟩
    rcases shown_cases h he with ⟨-, rfl, hn, -⟩ | ⟨v, a', rfl, hv, -⟩
    · rw [hn] at hew
      exact absurd hew (by simp)
    · exact hw (by rw [← hew, hv]; rfl)
  cases step_cases h with
  | delivered =>
    obtain rfl := Option.some.inj hw
    simp [Worker.active, Worker.go] at ha
  | crashed =>
    obtain rfl := Option.some.inj hw
    simp [Worker.active, Worker.crash, handled] at ha
  | worked hs =>
    obtain rfl := Option.some.inj hw
    simp only [handled, Function.update_self] at ha ⊢
    obtain ⟨msg, phase, hh, hst⟩ := Worker.handler_of_step hs
    cases hst with
    | claimed hj =>
      obtain rfl : _ = job := Option.some.inj ha
      exact .inr ⟨rfl, _, hh, rfl, hj⟩
    | @processed job' =>
      obtain rfl : job' = job := Option.some.inj ha
      refine .inl ⟨by rw [Worker.active, hh], by rw [hh]; rfl, fun e he => ?_⟩
      simp [shown, Worker.call, hh] at he
    | @recorded job' row outcome => cases outcome <;> simp [Worker.active, Worker.go,
        Worker.afterRecord] at ha
    | _ => simp [Worker.active, Worker.go, Worker.backoffBeforeRequeue] at ha
  | _ => simp [mover] at hw

/-- A handler that is to record an outcome has just come to it, or was to before. -/
theorem record_of_step {a : WorldAction} (h : s.step a = some t) {msg : JobCreatedMessage}
    {job : Job} {outcome : Outcome}
    (hh : (t.workers w).handler = some ⟨msg, .record job outcome⟩) :
    (s.workers w).handler = some ⟨msg, .record job outcome⟩
      ∨ outcome = outcomeOf job (processJob job) := by
  by_cases hw : mover a = some w
  swap
  · exact .inl (workers_of_step h hw ▸ hh)
  cases step_cases h with
  | delivered =>
    obtain rfl := Option.some.inj hw
    simp [Worker.go] at hh
  | crashed =>
    obtain rfl := Option.some.inj hw
    simp [Worker.crash, handled] at hh
  | worked hs =>
    obtain rfl := Option.some.inj hw
    simp only [handled, Function.update_self] at hh
    obtain ⟨msg', phase, -, hst⟩ := Worker.handler_of_step hs
    cases hst with
    | processed =>
      simp only [Worker.go, Option.some.injEq, Handler.mk.injEq, HandlerPhase.record.injEq] at hh
      obtain ⟨-, rfl, rfl⟩ := hh
      exact .inr rfl
    | @recorded job' row outcome => cases outcome <;> simp [Worker.go, Worker.afterRecord] at hh
    | _ => simp [Worker.go, Worker.backoffBeforeRequeue] at hh
  | _ => simp [mover] at hw

/-- What a claim that returns a row shows, and the row it leaves. -/
theorem claimed_step {msg : JobCreatedMessage} {job : Job}
    (h : s.step (.work w (.claimJob .ok)) = some t)
    (hh : (s.workers w).handler = some ⟨msg, .claimJob⟩)
    (hj : (claimJob s.now s.db.jobs msg.jobId).2 = some job) :
    job.id = msg.jobId ∧ t.db.jobs.get job.id = some job ∧ job.status = .processing
      ∧ s.shown (.work w (.claimJob .ok)) t
        = [⟨some w, ⟨msg.jobId, s.now, .claimJob⟩, true, true⟩] := by
  have hc : (s.workers w).call s.now (.claimJob .ok) = some ⟨msg.jobId, s.now, .claimJob⟩ := by
    simp only [Worker.call, hh, Reply.executed, if_true]
  have hr : (Call.run s.db.jobs ⟨msg.jobId, s.now, .claimJob⟩).2 = some job := hj
  have hsh : s.shown (.work w (.claimJob .ok)) t
      = [⟨some w, ⟨msg.jobId, s.now, .claimJob⟩, true, true⟩] := by
    simp only [shown, hc, Option.toList_some, List.map_cons, List.map_nil, Call.succeeds, hr]
    rfl
  obtain ⟨hw, hg⟩ := Call.writes hr
  have hid : job.id = msg.jobId := Db.id_of_run hr
  refine ⟨hid, ?_, hw.status, hsh⟩
  rcases jobs_of_step h with ⟨hn, -⟩ | ⟨e, he, ht, -⟩
  · simp [hsh] at hn
  · rw [hsh, List.cons.injEq] at he
    rw [ht, ← he.1, hid, hg, if_pos rfl]

theorem active_record {msg : JobCreatedMessage} {job : Job} {outcome : Outcome}
    (h : (s.workers w).handler = some ⟨msg, .record job outcome⟩) :
    (s.workers w).active = some job := by
  rw [Worker.active, h]

end World

end DeadLetter
