import DeadLetter.Proofs.World

/-!
# What a payload decides

`processJob` reads the type and the payload of a job, and no statement changes these. So a job's
payload says from its creation which states it can come to, whatever workers are slow, die or take
jobs over: an outcome is written only where some worker has processed the same payload.
-/

namespace DeadLetter

open Transition

/-- A job that succeeds is never retried, dead-lettered or replayed, and one that fails is never
completed. -/
def Job.Decided (j : Job) : Prop :=
  j.status ≠ .failed ∧ match processJob j with
  | .ok () => j.status ≠ .retrying ∧ j.status ≠ .deadLettered ∧ j.lastError = none
      ∧ j.replayCount = 0 ∧ j.lastDeadLetterReason = none
  | .error e => j.status ≠ .completed ∧ (e.nonRetryable = true → j.status ≠ .retrying)
      ∧ (∀ m ∈ j.lastError, m = e.message) ∧ ∀ m ∈ j.lastDeadLetterReason, m = e.message

/-- A call that records an outcome records this one. -/
def JobOp.Fits (r : Except ProcessingError Unit) : JobOp → Prop
  | .markCompleted => r = .ok ()
  | .markRetrying m => ∃ e, r = .error e ∧ e.nonRetryable = false ∧ e.message = m
  | .markDeadLettered m => ∃ e, r = .error e ∧ e.message = m
  | _ => True

theorem fits_outcomeOf (job : Job) (r : Except ProcessingError Unit) :
    (outcomeOf job r).op.Fits r := by
  rcases r with e | ⟨⟩
  · cases hn : e.nonRetryable
    · by_cases hx : job.attemptCount ≥ job.maxAttempts
      · simp [outcomeOf, hn, hx, Outcome.op, JobOp.Fits]
      · simp [outcomeOf, hn, hx, Outcome.op, JobOp.Fits]
    · simp [outcomeOf, hn, Outcome.op, JobOp.Fits]
  · rfl

theorem Writes.processJob {c : Call} {i j : Job} (h : Writes c (some i) j) :
    processJob j = processJob i := by
  rcases c with ⟨k, now, op⟩
  cases h with
  | update hu =>
    cases op <;> simp only [JobOp.update, Option.some.injEq, reduceCtorEq] at hu <;> subst hu <;>
      rfl

theorem decided_newJob (now : ℤ) (id : Uuid) (type : String) (payload : Payload) :
    (newJob now id type payload).Decided := by
  refine ⟨by simp [newJob], ?_⟩
  split <;> simp [newJob]

theorem Job.Decided.writes {c : Call} {i j : Job} (hi : i.Decided) (h : Writes c (some i) j)
    (hf : c.op.Fits (processJob i)) : j.Decided := by
  obtain ⟨-, hi⟩ := hi
  refine ⟨by rw [h.status]; cases c.op <;> simp [JobOp.status], ?_⟩
  rw [h.processJob]
  rcases c with ⟨k, now, op⟩
  cases h with
  | update hu hc =>
    rcases hp : processJob i with e | ⟨⟩ <;> rw [hp] at hi hf <;> simp only at hi ⊢ <;>
      obtain ⟨h1, h2, h3, h4⟩ := hi <;>
      cases op <;> simp only [JobOp.update, Option.some.injEq, reduceCtorEq] at hu <;> subst hu
    case error.claimJob => exact ⟨by simp [claimJobUpdate], by simp [claimJobUpdate], h3, h4⟩
    case error.markCompleted => exact absurd hf (by simp [JobOp.Fits])
    case error.markRetrying m =>
      obtain ⟨e', he, hn, rfl⟩ := hf
      obtain rfl := Except.error.inj he
      exact ⟨by simp [markRetryingUpdate], by simp [hn], by simp [markRetryingUpdate], h4⟩
    case error.markDeadLettered m =>
      obtain ⟨e', he, rfl⟩ := hf
      obtain rfl := Except.error.inj he
      refine ⟨by simp [markDeadLetteredUpdate], by simp [markDeadLetteredUpdate], ?_, ?_⟩
      · simp [markDeadLetteredUpdate]
      · simp [markDeadLetteredUpdate]
    case error.claimReplay =>
      exact ⟨by simp [claimReplayUpdate], by simp [claimReplayUpdate], by simp [claimReplayUpdate],
        h4⟩
    case ok.claimJob =>
      exact ⟨by simp [claimJobUpdate], by simp [claimJobUpdate], h3, h4⟩
    case ok.markCompleted =>
      exact ⟨by simp [markCompletedUpdate], by simp [markCompletedUpdate], rfl, h4⟩
    case ok.markRetrying m => exact absurd hf (by simp [JobOp.Fits])
    case ok.markDeadLettered m => exact absurd hf (by simp [JobOp.Fits])
    case ok.claimReplay => exact absurd (by simpa [claimReplayUpdate] using hc) h2

/-! ## Runs -/

/-- Job `k` fails, with an error that `p` holds of. -/
def Fails (jobs : Jobs) (p : ProcessingError → Prop) (k : Uuid) : Prop :=
  ∃ j e, jobs.get k = some j ∧ processJob j = .error e ∧ p e

/-- No row is gone, and none is processed otherwise. -/
def SameVerdicts (jobs jobs' : Jobs) : Prop :=
  ∀ k i, jobs.get k = some i → ∃ j, jobs'.get k = some j ∧ processJob j = processJob i

theorem Fails.mono {jobs jobs' : Jobs} {p : ProcessingError → Prop} {k : Uuid}
    (h : Fails jobs p k) (hs : SameVerdicts jobs jobs') : Fails jobs' p k := by
  obtain ⟨i, e, hi, he, hp⟩ := h
  obtain ⟨j, hj, hij⟩ := hs k i hi
  exact ⟨j, e, hj, hij.trans he, hp⟩

/-- What the handler of a message for job `k` goes on to do is what its payload asks for. -/
def HandlerPhase.Fits (jobs : Jobs) (k : Uuid) : HandlerPhase → Prop
  | .processJob job =>
    ∃ j, jobs.get k = some j ∧ DeadLetter.processJob j = DeadLetter.processJob job
  | .record _ outcome => ∃ j, jobs.get k = some j ∧ outcome.op.Fits (DeadLetter.processJob j)
  | .publishRetry _ => Fails jobs (fun e => e.nonRetryable = false) k
  | .publishDeadLetter => Fails jobs (fun _ => True) k
  | _ => True

theorem HandlerPhase.Fits.mono {jobs jobs' : Jobs} {k : Uuid} {phase : HandlerPhase}
    (h : phase.Fits jobs k) (hs : SameVerdicts jobs jobs') : phase.Fits jobs' k := by
  cases phase with
  | processJob job =>
    obtain ⟨i, hi, hp⟩ := h
    obtain ⟨j, hj, hij⟩ := hs k i hi
    exact ⟨j, hj, hij.trans hp⟩
  | record job outcome =>
    obtain ⟨i, hi, hp⟩ := h
    obtain ⟨j, hj, hij⟩ := hs k i hi
    exact ⟨j, hj, hij ▸ hp⟩
  | publishRetry delayMs => exact Fails.mono h hs
  | publishDeadLetter => exact Fails.mono h hs
  | _ => trivial

namespace World

variable {s t : World}

/-- Every row is as its payload decides, no retry is published but of a job that may be retried,
and no dead letter but of one that fails. -/
structure Decided (s : World) : Prop where
  rows : ∀ j ∈ s.db.jobs, j.Decided
  retry : ∀ x ∈ s.retry, Fails s.db.jobs (fun e => e.nonRetryable = false) x.1.jobId
  dlq : ∀ msg ∈ s.dlq, Fails s.db.jobs (fun _ => True) msg.jobId

structure Foreseen (s : World) : Prop extends Decided s where
  handlers : ∀ w msg phase, (s.workers w).handler = some ⟨msg, phase⟩ →
    phase.Fits s.db.jobs msg.jobId

theorem sameVerdicts_of_step {a : WorldAction} (h : s.step a = some t) :
    SameVerdicts s.db.jobs t.db.jobs := by
  intro k i hi
  rcases row_cases h k with ⟨ht, -⟩ | ⟨e, j, -, -, -, hj, hw⟩
  · exact ⟨i, ht.trans hi, rfl⟩
  · rw [hi] at hw
    exact ⟨j, hj, hw.processJob⟩

/-- A call records the outcome that a handler came to. -/
theorem Foreseen.fits (hI : Foreseen s) {a : WorldAction} (h : s.step a = some t) {e : Entry}
    (he : e ∈ s.shown a t) {i : Job} (hi : s.db.jobs.get e.call.id = some i) :
    e.call.op.Fits (processJob i) := by
  rcases shown_cases h he with ⟨-, -, -, ha⟩ | ⟨w, a', -, -, hc, -⟩
  · cases ho : e.call.op <;> simp [ho, JobOp.isApi] at ha <;> trivial
  · rcases Worker.call_cases hc with ⟨msg, reply, -, -, -, hce⟩
      | ⟨msg, job, outcome, reply, hh, -, -, hce⟩
    · rw [hce]
      trivial
    · obtain ⟨j, hj, hf⟩ := hI.handlers w msg _ hh
      rw [hce] at hi ⊢
      obtain rfl : j = i := Option.some.inj (hj.symm.trans hi)
      exact hf

theorem Foreseen.rows_step (hI : Foreseen s) {a : WorldAction} (h : s.step a = some t) :
    ∀ j ∈ t.db.jobs, j.Decided := by
  intro j hj
  have hj := Table.get_of_mem hj
  rcases row_cases h j.id with ⟨hs, -⟩ | ⟨e, i, he, -, hk, hi, hw⟩
  · exact hI.rows j (Table.mem_of_get (hs ▸ hj))
  · obtain rfl : i = j := Option.some.inj (hi.symm.trans hj)
    rcases hg : s.db.jobs.get i.id with _ | i₀ <;> rw [hg] at hw
    · cases hw
      exact decided_newJob _ _ _ _
    · exact (hI.rows i₀ (Table.mem_of_get hg)).writes hw
        (hI.fits h (by simp [he]) (by rw [hk, hg]))

theorem fits_handler {jobs : Jobs} {msg : JobCreatedMessage} {phase : HandlerPhase}
    (hp : phase.Fits jobs msg.jobId) : ∀ m p, some (⟨msg, phase⟩ : Handler) = some ⟨m, p⟩ →
      p.Fits jobs m.jobId := by
  rintro m p hm
  obtain ⟨rfl, rfl⟩ := Handler.mk.inj (Option.some.inj hm)
  exact hp

theorem fits_update {jobs : Jobs} {workers : ℕ → Worker} {w : ℕ} {wk : Worker}
    (hw : ∀ m p, wk.handler = some ⟨m, p⟩ → p.Fits jobs m.jobId)
    (hkept : ∀ v m p, (workers v).handler = some ⟨m, p⟩ → p.Fits jobs m.jobId) :
    ∀ v m p, (Function.update workers w wk v).handler = some ⟨m, p⟩ → p.Fits jobs m.jobId := by
  intro v m p hm
  by_cases hv : v = w
  · subst hv
    rw [Function.update_self] at hm
    exact hw m p hm
  · rw [Function.update_of_ne hv] at hm
    exact hkept v m p hm

/-- The handler that a step leaves a worker with, and the retries and dead letters it publishes. -/
theorem Foreseen.handled (hI : Foreseen s) {w : ℕ} {a : HandlerAction} {hd : Handled}
    (hs : (s.workers w).step s.now s.time s.db.jobs a = some hd) {jobs : Jobs}
    (hj : SameVerdicts s.db.jobs jobs)
    (hc : ∀ msg job, a = .claimJob .ok → (s.workers w).handler = some ⟨msg, .claimJob⟩ →
      (claimJob s.now s.db.jobs msg.jobId).2 = some job → jobs.get msg.jobId = some job) :
    (∀ msg phase, hd.worker.handler = some ⟨msg, phase⟩ → phase.Fits jobs msg.jobId)
      ∧ (∀ x ∈ hd.retry, Fails jobs (fun e => e.nonRetryable = false) x.1.jobId)
      ∧ ∀ m ∈ hd.dlq, Fails jobs (fun _ => True) m.jobId := by
  obtain ⟨msg, phase, hh, hst⟩ := Worker.handler_of_step hs
  have hp := (hI.handlers w msg phase hh).mono hj
  cases hst with
  | @claimed job hj' => exact ⟨fits_handler ⟨job, hc msg job rfl hh hj', rfl⟩, by simp, by simp⟩
  | @processed job =>
    obtain ⟨j, hj, hjp⟩ := hp
    exact ⟨fits_handler ⟨j, hj, hjp ▸ fits_outcomeOf job _⟩, by simp, by simp⟩
  | @recorded job row outcome =>
    refine ⟨fits_handler ?_, by simp, by simp⟩
    obtain ⟨j, hj, hf⟩ := hp
    cases outcome with
    | completed => trivial
    | deadLettered m b =>
      obtain ⟨e, he, -⟩ := hf
      exact ⟨j, e, hj, he, trivial⟩
    | retrying m delayMs =>
      obtain ⟨e, he, hn, -⟩ := hf
      exact ⟨j, e, hj, he, hn⟩
  | publishedRetry =>
    exact ⟨fits_handler trivial, fun x hx => List.mem_singleton.1 hx ▸ hp, by simp⟩
  | @retryThrew delayMs b =>
    refine ⟨fits_handler trivial, fun x hx => ?_, by simp⟩
    cases b
    · simp at hx
    · exact List.mem_singleton.1 hx ▸ hp
  | publishedDeadLetter =>
    exact ⟨fits_handler trivial, by simp, fun m hm => List.mem_singleton.1 hm ▸ hp⟩
  | @deadLetterThrew b =>
    refine ⟨fits_handler trivial, by simp, fun m hm => ?_⟩
    cases b
    · simp at hm
    · exact List.mem_singleton.1 hm ▸ hp
  | notClaimed => exact ⟨fits_handler trivial, by simp, by simp⟩
  | claimThrew => exact ⟨fits_handler trivial, by simp, by simp⟩
  | read => exact ⟨fits_handler trivial, by simp, by simp⟩
  | recordThrew => exact ⟨fits_handler trivial, by simp, by simp⟩
  | requeued => exact ⟨by simp, by simp, by simp⟩
  | acked => exact ⟨by simp, by simp, by simp⟩

theorem foreseen_init : Foreseen init where
  rows _ h := by simp [init, Db.init, Table.empty, Table.mem_def] at h
  retry _ h := by simp [init] at h
  dlq _ h := by simp [init] at h
  handlers _ _ _ h := by simp [init] at h

theorem Foreseen.step (hI : Foreseen s) {a : WorldAction} (h : s.step a = some t) :
    Foreseen t := by
  have hv := sameVerdicts_of_step h
  have hrows := hI.rows_step h
  have hretry := fun x hx => (hI.retry x hx).mono hv
  have hdlq := fun x hx => (hI.dlq x hx).mono hv
  have hkept := fun w msg phase hw => (hI.handlers w msg phase hw).mono hv
  cases step_cases h with
  | passed => exact ⟨⟨hrows, hretry, hdlq⟩, hkept⟩
  | committed => exact ⟨⟨hrows, hretry, hdlq⟩, hkept⟩
  | dispatched => exact ⟨⟨hrows, hretry, hdlq⟩, hkept⟩
  | expired hr =>
    exact ⟨⟨hrows, fun x hx => hretry x (hr ▸ List.mem_cons_of_mem _ hx), hdlq⟩, hkept⟩
  | delivered =>
    exact ⟨⟨hrows, hretry, hdlq⟩, fits_update (@fits_handler _ _ .claimJob trivial) hkept⟩
  | @worked w a hd hs =>
    obtain ⟨hh, hr, hd'⟩ := hI.handled hs hv fun msg job ha hh hj => by
      subst ha
      obtain ⟨hid, hrow, -⟩ := claimed_step h hh hj
      rwa [hid] at hrow
    refine ⟨⟨hrows, fun x hx => ?_, fun x hx => ?_⟩, fits_update hh hkept⟩
    · exact (List.mem_append.1 hx).elim (hretry x) (hr x)
    · exact (List.mem_append.1 hx).elim (hdlq x) (hd' x)
  | crashed =>
    refine ⟨⟨hrows, fun x hx => ?_, fun x hx => ?_⟩, fits_update (by simp [Worker.crash]) hkept⟩
    · exact (List.mem_append.1 hx).elim (hretry x) (by simp [Worker.crash])
    · exact (List.mem_append.1 hx).elim (hdlq x) (by simp [Worker.crash])

/-- A job that is to fail for good is taken over from a worker that died on it. -/
def takenOverFailure : List WorldAction :=
  [.commit ⟨1, 0, .createJob "email" [("shouldFailPermanently", .bool true)]⟩ 7,
    .dispatch 0 (.claim {} .ok), .dispatch 0 (.publish .ok),
    .dispatch 0 (.markPublished .ok (.value "")), .deliver 0 ⟨1⟩, .work 0 (.claimJob .ok),
    .crash 0, .pass 61000 (seconds 61), .deliver 1 ⟨1⟩, .work 1 (.claimJob .ok),
    .work 1 .processJob, .work 1 (.record .ok), .work 1 (.publish true true)]

end World

end DeadLetter
