import DeadLetter.Census
import DeadLetter.Proofs.World

/-!
# The messages accounted for

A delivery, an expiry, a requeue and the death of a worker move a message; only a publish makes one,
and only an acknowledgement takes one away. So the books of a job's messages balance in every
state, whatever fails: what was enqueued is acknowledged or somewhere, a handler that lets its
message go has had the reason to, and a failure in a job's row is published or it is known why not.
-/

namespace DeadLetter

open Transition

/-- What becomes of the messages of a job, and what its handlers' awaits come to. A mark that wrote
its row may be unheard of, its reply being lost. -/
inductive MessageEvent
  | enqueued
  | notClaimed
  | completed
  | completionUnheard
  | rejected
  | retrying
  | failureUnheard
  | retried
  | deadLettered
  | passedOn
  | unpublished
  | acked
  | abandoned
  deriving DecidableEq, Repr

namespace Worker

def handles (k : Uuid) (wk : Worker) : Bool := wk.handler.any fun h => h.msg.jobId = k

/-- On a message for job `k`, with nothing left but to acknowledge it. -/
def letsGo (k : Uuid) (wk : Worker) : Bool :=
  wk.handler.any fun h => h.msg.jobId = k && (h.phase = .getJobById || h.phase = .ack)

def publishesFailure (k : Uuid) (wk : Worker) : Bool :=
  wk.handler.any fun h => h.msg.jobId = k && match h.phase with
    | .publishRetry _ | .publishDeadLetter => true
    | _ => false

/-- What a mark comes to that has written its row. -/
def recorded (replied : Bool) : Outcome → List MessageEvent
  | .completed => .completed :: if replied then [] else [.completionUnheard]
  | .deadLettered _ _ => .rejected :: if replied then [] else [.failureUnheard]
  | .retrying _ _ => .retrying :: if replied then [] else [.failureUnheard]

/-- What a step of a handler that is not its last comes to. -/
def messageEvents (now : ℤ) (jobs : Jobs) (msg : JobCreatedMessage) :
    HandlerPhase → HandlerAction → List MessageEvent
  | .claimJob, .claimJob .ok =>
    if (claimJob now jobs msg.jobId).2.isNone then [.notClaimed] else []
  | .record _ outcome, .record reply =>
    if reply.executed && Call.succeeds jobs ⟨msg.jobId, now, outcome.op⟩ then
      recorded (reply = .ok) outcome
    else []
  | .publishRetry _, .publish ok enqueued =>
    (if ok || enqueued then [.retried] else [.unpublished]) ++ if ok then [.passedOn] else []
  | .publishDeadLetter, .publish ok enqueued =>
    (if ok || enqueued then [.deadLettered] else [.unpublished]) ++ if ok then [.passedOn] else []
  | .ack, .ack => [.acked]
  | _, _ => []

end Worker

namespace World

open Worker

variable {s t : World} {w : ℕ} {k : Uuid}

def messageEvents (k : Uuid) (s : World) (a : WorldAction) (_ : World) : List MessageEvent :=
  match a with
  | .dispatch r a =>
    ((s.enqueued r a).filter fun msg => msg.jobId = k).map fun _ => .enqueued
  | .work w a => match (s.workers w).handler with
    | some ⟨msg, phase⟩ =>
      if msg.jobId = k then Worker.messageEvents s.now s.db.jobs msg phase a else []
    | none => []
  | .crash w =>
    if (s.workers w).letsGo k then [.abandoned]
    else if (s.workers w).publishesFailure k then [.unpublished] else []
  | _ => []

/-- The books of job `k`'s messages, `l` being what became of them so far. -/
structure Balanced (l : List MessageEvent) (s : World) (k : Uuid) : Prop where
  /-- What was enqueued is acknowledged, or in a queue, or with a worker. -/
  messages : l.count .enqueued + l.count .retried
    = l.count .acked + s.main.countP (·.jobId = k) + s.retry.countP (·.1.jobId = k)
      + Census.count (handles k) s.workers
  deadLetters : l.count .deadLettered = s.dlq.countP (·.jobId = k)
  /-- A handler lets its message go for a job it could not claim, one it has completed, or one
  whose failure it has recorded and published. -/
  reasons : l.count .notClaimed + l.count .completed + l.count .passedOn
    = l.count .acked + l.count .abandoned + l.count .completionUnheard
      + Census.count (letsGo k) s.workers
  /-- A failure that is recorded is published, or about to be, or its publish has come to nothing,
  or the handler has not heard of it. -/
  failures : l.count .rejected + l.count .retrying
    = l.count .deadLettered + l.count .retried + l.count .unpublished + l.count .failureUnheard
      + Census.count (publishesFailure k) s.workers

/-- A mark that moves job `k` to `RETRYING` or to `DEAD_LETTERED`. -/
def marksFailure (k : Uuid) (e : Entry) : Bool :=
  e.call.id = k && e.wrote && match e.call.op with
    | .markRetrying _ | .markDeadLettered _ => true
    | _ => false

/-! ## What a step adds to the books -/

/-- What a step of a handler adds to the one side of each account, it adds to the other. -/
theorem books_of_handlerStep {now : ℤ} {time : ℕ} {jobs : Jobs} {wk : Worker}
    {msg : JobCreatedMessage} {phase : HandlerPhase} {a : HandlerAction} {hd : Handled}
    (hh : wk.handler = some ⟨msg, phase⟩) (hst : HandlerStep now time jobs wk msg phase a hd)
    {ev : List MessageEvent}
    (hev : ev = if msg.jobId = k then Worker.messageEvents now jobs msg phase a else []) :
    ev.count .enqueued = 0 ∧ ev.count .abandoned = 0
      ∧ ev.count .retried + (wk.handles k).toNat
        = ev.count .acked + hd.main.countP (·.jobId = k) + hd.retry.countP (·.1.jobId = k)
          + (hd.worker.handles k).toNat
      ∧ ev.count .deadLettered = hd.dlq.countP (·.jobId = k)
      ∧ ev.count .notClaimed + ev.count .completed + ev.count .passedOn + (wk.letsGo k).toNat
        = ev.count .acked + ev.count .completionUnheard + (hd.worker.letsGo k).toNat
      ∧ ev.count .rejected + ev.count .retrying + (wk.publishesFailure k).toNat
        = ev.count .deadLettered + ev.count .retried + ev.count .unpublished
          + ev.count .failureUnheard + (hd.worker.publishesFailure k).toNat := by
  subst hev
  unfold handles letsGo publishesFailure
  rw [hh]
  by_cases hk : msg.jobId = k
  swap
  · cases hst <;> simp [hk, go, backoffBeforeRequeue]
    all_goals split_ifs <;> simp [hk]
  subst hk
  rw [if_pos rfl]
  cases hst with
  | claimed hj => simp [Worker.messageEvents, hj]
  | notClaimed hj => simp [Worker.messageEvents, hj]
  | @recorded job row outcome hj =>
    cases outcome <;> simp_all [Worker.messageEvents, Worker.recorded, Call.succeeds,
      Reply.executed, go, afterRecord]
  | @recordThrew job outcome reply hj =>
    cases reply with
    | ok => simp [Worker.messageEvents, Call.succeeds, hj rfl, backoffBeforeRequeue]
    | failed => simp [Worker.messageEvents, Reply.executed, backoffBeforeRequeue]
    | lost =>
      rcases hs : Call.succeeds jobs ⟨msg.jobId, now, outcome.op⟩
      · simp [Worker.messageEvents, hs, backoffBeforeRequeue]
      · cases outcome <;>
          simp [Worker.messageEvents, Worker.recorded, Reply.executed, hs, backoffBeforeRequeue]
  | @claimThrew reply hr =>
    cases reply <;> simp_all [Worker.messageEvents, backoffBeforeRequeue]
  | @retryThrew _ b => cases b <;> simp [Worker.messageEvents, backoffBeforeRequeue]
  | @deadLetterThrew b => cases b <;> simp [Worker.messageEvents, backoffBeforeRequeue]
  | _ => simp [Worker.messageEvents, go]

/-- The workers with a handler. -/
def busy (s : World) : Set ℕ := Census.among (fun wk => wk.handler.isSome) s.workers

theorem finite_busy_step {a : WorldAction} (hs : s.busy.Finite) (h : s.step a = some t) :
    t.busy.Finite := by
  cases step_cases h with
  | delivered => exact Census.finite_update hs
  | worked => exact Census.finite_update hs
  | crashed => exact Census.finite_update hs
  | _ => exact hs

theorem finite_busy_init : init.busy.Finite := by
  rw [busy, Census.among_eq_empty.2 fun _ => rfl]
  exact Set.finite_empty

/-- A worker that moves leaves the workers of a kind as it was, and joins them as it is. -/
theorem count_move (hf : s.busy.Finite) (w : ℕ) (wk : Worker) {p : Worker → Bool}
    (hp : ∀ wk, p wk = true → wk.handler.isSome = true) :
    Census.count p (Function.update s.workers w wk) + (p (s.workers w)).toNat
      = Census.count p s.workers + (p wk).toNat :=
  Census.count_update (hf.subset (Census.among_subset hp))

theorem isSome_of_any {α : Type*} {o : Option α} {p : α → Bool} (h : o.any p = true) :
    o.isSome = true := by
  rcases o with _ | a
  · simp at h
  · rfl

/-- A step that is not a worker's leaves the workers' counts, and shows what it enqueues. -/
theorem Balanced.of_enqueued {l ev : List MessageEvent} {n : ℕ} (hb : s.Balanced l k)
    (hev : ev = List.replicate n .enqueued)
    (hq : t.main.countP (·.jobId = k) + t.retry.countP (·.1.jobId = k)
      = n + s.main.countP (·.jobId = k) + s.retry.countP (·.1.jobId = k))
    (hd : t.dlq = s.dlq) (hw : t.workers = s.workers) : t.Balanced (l ++ ev) k := by
  obtain ⟨hm, hdl, hr, hfl⟩ := hb
  subst hev
  constructor <;> simp only [List.count_append, List.count_replicate, hd, hw] <;>
    simp only [beq_iff_eq, reduceCtorEq, if_true, if_false] <;> omega

/-- A step that moves worker `w` puts as much on the one side of each account as on the other. -/
theorem Balanced.of_moved {l ev : List MessageEvent} {wk : Worker} (hb : s.Balanced l k)
    (hf : s.busy.Finite)
    (hw : t.workers = Function.update s.workers w wk)
    (hm : ev.count .enqueued + ev.count .retried + s.main.countP (·.jobId = k)
        + s.retry.countP (·.1.jobId = k) + ((s.workers w).handles k).toNat
      = ev.count .acked + t.main.countP (·.jobId = k) + t.retry.countP (·.1.jobId = k)
        + (wk.handles k).toNat)
    (hd : ev.count .deadLettered + s.dlq.countP (·.jobId = k) = t.dlq.countP (·.jobId = k))
    (hr : ev.count .notClaimed + ev.count .completed + ev.count .passedOn
        + ((s.workers w).letsGo k).toNat
      = ev.count .acked + ev.count .abandoned + ev.count .completionUnheard + (wk.letsGo k).toNat)
    (hfl : ev.count .rejected + ev.count .retrying + ((s.workers w).publishesFailure k).toNat
      = ev.count .deadLettered + ev.count .retried + ev.count .unpublished
        + ev.count .failureUnheard + (wk.publishesFailure k).toNat) : t.Balanced (l ++ ev) k := by
  have h1 := count_move hf w wk (p := handles k) fun _ => isSome_of_any
  have h2 := count_move hf w wk (p := letsGo k) fun _ => isSome_of_any
  have h3 := count_move hf w wk (p := publishesFailure k) fun _ => isSome_of_any
  obtain ⟨hm', hd', hr', hfl'⟩ := hb
  constructor <;> simp only [List.count_append, hw] <;> omega

theorem Balanced.step {l : List MessageEvent} {a : WorldAction} (hb : s.Balanced l k)
    (hf : s.busy.Finite)
    (h : s.step a = some t) : t.Balanced (l ++ messageEvents k s a t) k := by
  cases step_cases h with
  | passed => exact hb.of_enqueued (n := 0) rfl (by simp) rfl rfl
  | committed ha hc => exact hb.of_enqueued (n := 0) rfl (by simp) rfl rfl
  | @dispatched r a outbox ho =>
    refine hb.of_enqueued (n := (s.enqueued r a).countP (·.jobId = k)) ?_ ?_ rfl rfl
    · simp [messageEvents, List.countP_eq_length_filter]
    · simp only [List.countP_append]
      omega
  | @expired msg expiresAt retry hr ht =>
    refine hb.of_enqueued (n := 0) rfl ?_ rfl rfl
    simp only [hr, List.countP_append, List.countP_cons, List.countP_nil]
    omega
  | @delivered w msg hmem hw =>
    have hperm := (List.perm_cons_erase hmem).countP_eq (fun m => decide (m.jobId = k))
    rw [List.countP_cons] at hperm
    refine hb.of_moved hf rfl ?_ ?_ ?_ ?_ <;>
      simp only [messageEvents, List.count_nil, handles, letsGo, publishesFailure, hw, go,
        hperm] <;>
      by_cases hk : msg.jobId = k <;> simp [hk]
    omega
  | @worked w a hd hs =>
    obtain ⟨msg, phase, hh, hst⟩ := Worker.handler_of_step hs
    obtain ⟨h1, h2, h3, h4, h5, h6⟩ := books_of_handlerStep (k := k) hh hst rfl
    have hev : messageEvents k s (.work w a) (World.handled
        { s with db := afterCall s.db ((s.workers w).call s.now a) } w hd)
        = if msg.jobId = k then Worker.messageEvents s.now s.db.jobs msg phase a else [] := by
      simp only [messageEvents, hh]
    rw [hev]
    refine hb.of_moved hf rfl ?_ ?_ (by omega) (by omega) <;>
      simp only [handled, List.countP_append] <;> omega
  | @crashed w =>
    rcases hh : (s.workers w).handler with _ | ⟨msg, phase⟩
    · refine hb.of_moved hf rfl ?_ ?_ ?_ ?_ <;>
        simp [handled, Worker.crash, messageEvents, handles, letsGo, publishesFailure, hh]
    · refine hb.of_moved hf rfl ?_ ?_ ?_ ?_ <;> by_cases hk : msg.jobId = k <;> cases phase <;>
        simp [handled, Worker.crash, messageEvents, handles, letsGo, publishesFailure, hh, hk]
      all_goals omega

theorem balanced_init : init.Balanced [] k := by
  have h0 : ∀ {p : Worker → Bool}, p {} = false → Census.count p init.workers = 0 := fun hp =>
    Census.count_eq_zero_of fun _ => hp
  refine ⟨?_, rfl, ?_, ?_⟩
  · rw [h0 (p := handles k) rfl]
    rfl
  · rw [h0 (p := letsGo k) rfl]
    rfl
  · rw [h0 (p := publishesFailure k) rfl]
    rfl

/-- What a step of a handler adds to the failures in the books, its call shows. -/
theorem failures_of_call {now : ℤ} {jobs : Jobs} {wk : Worker} {msg : JobCreatedMessage}
    {phase : HandlerPhase} (hh : wk.handler = some ⟨msg, phase⟩) (a : HandlerAction) :
    (Worker.messageEvents now jobs msg phase a).count .rejected
        + (Worker.messageEvents now jobs msg phase a).count .retrying
      = ((wk.call now a).toList.map fun c =>
        (⟨some w, c, c.succeeds jobs, a.replied⟩ : Entry)).countP (marksFailure msg.jobId) := by
  unfold Worker.call
  rw [hh]
  cases phase with
  | claimJob =>
    cases a with
    | claimJob reply =>
      rcases hn : (claimJob now jobs msg.jobId).2 <;> cases reply <;>
        simp [Worker.messageEvents, Reply.executed, marksFailure, hn]
    | _ => rfl
  | record job outcome =>
    cases a with
    | record reply =>
      cases outcome <;> cases reply <;>
        simp [Worker.messageEvents, Worker.recorded, Reply.executed, marksFailure, Outcome.op] <;>
        split_ifs <;> simp
    | _ => rfl
  | publishRetry delayMs =>
    cases a with
    | publish ok enqueued => cases ok <;> cases enqueued <;> rfl
    | _ => rfl
  | publishDeadLetter =>
    cases a with
    | publish ok enqueued => cases ok <;> cases enqueued <;> rfl
    | _ => rfl
  | ack => cases a <;> rfl
  | _ => rfl

theorem marksFailure_of_ne {e : Entry} (h : e.call.id ≠ k) : marksFailure k e = false := by
  simp [marksFailure, h]

theorem marksFailure_of_isApi {e : Entry} (h : e.call.op.isApi = true) :
    marksFailure k e = false := by
  unfold marksFailure
  cases hop : e.call.op <;> simp_all [JobOp.isApi]

/-- The failures in the books are those that the marks wrote, whether their replies came or not. -/
theorem failures_of_step {a : WorldAction} (h : s.step a = some t) :
    (messageEvents k s a t).count .rejected + (messageEvents k s a t).count .retrying
      = (s.shown a t).countP (marksFailure k) := by
  cases step_cases h with
  | @committed c eventId db ha hc =>
    simp [messageEvents, shown,
      marksFailure_of_isApi (k := k) (e := ⟨none, c, c.succeeds s.db.jobs, true⟩) ha]
  | @dispatched r a outbox ho => simp [messageEvents, shown, List.count_eq_zero]
  | crashed =>
    simp only [messageEvents, shown]
    split_ifs <;> rfl
  | @worked w a hd hs =>
    obtain ⟨msg, phase, hh, hst⟩ := Worker.handler_of_step hs
    simp only [messageEvents, shown, hh]
    by_cases hk : msg.jobId = k
    · subst hk
      rw [if_pos rfl]
      exact failures_of_call hh a
    · rw [if_neg hk]
      rcases hc : (s.workers w).call s.now a with _ | c
      · rfl
      · have hid : c.id ≠ k := by
          rcases Worker.call_cases hc with ⟨_, _, hh', -, -, rfl⟩ | ⟨_, _, _, _, hh', -, -, rfl⟩ <;>
            rw [← (Handler.mk.inj (Option.some.inj (hh.symm.trans hh'))).1] <;> exact hk
        simp [marksFailure_of_ne (e := ⟨some w, c, c.succeeds s.db.jobs, a.replied⟩) hid]
  | _ => rfl

theorem failures_of_exec : ∀ {as : List WorldAction} {s t : World}, exec step s as = some t →
    (trace step (messageEvents k) s as).count .rejected
        + (trace step (messageEvents k) s as).count .retrying
      = (trace step shown s as).countP (marksFailure k)
  | [], _, _, _ => rfl
  | a :: as, s, u, h => by
    obtain ⟨t, hst, htu⟩ := exec_cons.1 h
    have hstep := failures_of_step (k := k) hst
    have hrest := failures_of_exec htu
    rw [trace_cons hst, trace_cons hst]
    simp only [List.count_append, List.countP_append]
    omega

/-- In every state of every run, whatever fails in it, the books of each job's messages balance, and
the failures in them are those that were written to the job's row. -/
theorem messages_accounted {as : List WorldAction} (h : exec step init as = some s) (k : Uuid) :
    s.Balanced (trace step (messageEvents k) init as) k
      ∧ (trace step (messageEvents k) init as).count .rejected
          + (trace step (messageEvents k) init as).count .retrying
        = (trace step shown init as).countP (marksFailure k) := by
  have hstep : ∀ l (s : World) a (t : World), s.busy.Finite ∧ s.Balanced l k →
      s.step a = some t → t.busy.Finite ∧ t.Balanced (l ++ messageEvents k s a t) k :=
    fun l s a t hI h => ⟨finite_busy_step hI.1 h, hI.2.step hI.1 h⟩
  exact ⟨(exec_trace_inv hstep ⟨finite_busy_init, balanced_init⟩ h).2, failures_of_exec h⟩

/-- The reply of the first mark is lost. The publish of the retry after the second throws, with the
retry enqueued; it expires as the message is with another worker, finds the job in `PROCESSING`, and
is redelivered, its worker having died. -/
def strayRetry : List WorldAction :=
  [.commit ⟨1, 0, .createJob "email" [("shouldFail", .bool true)]⟩ 7,
    .dispatch 0 (.claim {} .ok), .dispatch 0 (.publish .ok), .deliver 0 ⟨1⟩,
    .work 0 (.claimJob .ok), .work 0 .processJob, .work 0 (.record .lost), .pass 1000 0,
    .work 0 .requeue, .deliver 0 ⟨1⟩, .work 0 (.claimJob .ok), .work 0 .processJob,
    .work 0 (.record .ok), .work 0 (.publish false true), .pass 4000 0, .work 0 .requeue,
    .deliver 1 ⟨1⟩, .expire,
    .work 1 (.claimJob .ok), .deliver 0 ⟨1⟩, .work 0 (.claimJob .ok), .work 0 .getJobById, .crash 0]

theorem messages_accounted_strayRetry : ∃ s, exec step init strayRetry = some s
    ∧ s.main = [⟨1⟩] ∧ (s.workers 1).handles 1 = true
    ∧ trace step (messageEvents 1) init strayRetry
      = [.enqueued, .retrying, .failureUnheard, .retrying, .retried, .notClaimed, .abandoned]
    ∧ s.Balanced (trace step (messageEvents 1) init strayRetry) 1 :=
  ⟨_, rfl, by decide, by decide, by decide, (@messages_accounted _ strayRetry rfl 1).1⟩

end World

end DeadLetter
