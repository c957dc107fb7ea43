import DeadLetter.Proofs.Fence
import DeadLetter.Proofs.Payload

/-!
# Attempts where nothing is lost

While every worker is on time, no call on the jobs table fails and no worker dies between a claim
and its outcome, each claim is one attempt: the row of a job in `PROCESSING` is the one that some
worker has claimed. So a job has exactly the attempts in each of its cycles that its payload asks
for.
-/

namespace DeadLetter

open Transition

/-- The attempts of a cycle that comes to its end. -/
def Job.budget (j : Job) : ℕ :=
  match processJob j with
  | .ok () => 1
  | .error e => if e.nonRetryable then 1 else j.maxAttempts

/-- Each cycle before this one has had all its attempts, and this one is as far as its status
says. -/
structure Job.Spent (j : Job) : Prop where
  total : j.totalAttemptCount = j.budget * j.replayCount + j.attemptCount
  within : j.attemptCount ≤ j.budget
  queued : j.status = .queued ↔ j.attemptCount = 0
  left : j.status = .retrying → j.attemptCount < j.budget
  ended : j.status = .completed ∨ j.status = .deadLettered → j.attemptCount = j.budget
  positive : 0 < j.budget

theorem Writes.budget {c : Call} {i j : Job} (h : Writes c (some i) j) : j.budget = i.budget := by
  unfold Job.budget
  rw [h.processJob, h.maxAttempts]

theorem spent_newJob (now : ℤ) (id : Uuid) (type : String) (payload : Payload) :
    (newJob now id type payload).Spent := by
  refine ⟨by simp [newJob], by simp [newJob], by simp [newJob], by simp [newJob],
    by simp [newJob], ?_⟩
  unfold Job.budget
  split
  · exact Nat.one_pos
  · split_ifs <;> simp [newJob]

/-- The outcome of an attempt is the last of its cycle just where the budget is spent. -/
theorem outcome_budget (i : Job) (h : i.attemptCount ≤ i.budget) (hpos : 0 < i.attemptCount) :
    (outcomeOf i (processJob i)).op.status = .retrying ∧ i.attemptCount < i.budget
      ∨ (outcomeOf i (processJob i)).op.status ≠ .retrying ∧ i.attemptCount = i.budget := by
  unfold Job.budget at h ⊢
  rcases hp : processJob i with e | ⟨⟩ <;> rw [hp] at h <;> simp only at h ⊢
  · cases hn : e.nonRetryable <;> simp only [hn, if_true, Bool.false_eq_true, if_false] at h ⊢
    · by_cases hx : i.attemptCount ≥ i.maxAttempts
      · refine .inr ⟨?_, le_antisymm h hx⟩
        simp [outcomeOf, hn, hx, Outcome.op, JobOp.status]
      · refine .inl ⟨?_, not_le.1 hx⟩
        simp [outcomeOf, hn, hx, Outcome.op, JobOp.status]
    · refine .inr ⟨?_, by omega⟩
      simp [outcomeOf, hn, Outcome.op, JobOp.status]
  · exact .inr ⟨by simp [outcomeOf, Outcome.op, JobOp.status], by omega⟩

/-- A claim of a job that waits, the outcome of the row as it is, or a replay. -/
theorem Job.Spent.writes {c : Call} {i j : Job} (hi : i.Spent) (h : Writes c (some i) j)
    (hc : c.op = .claimJob → i.status ≠ .processing)
    (ho : c.op.isApi = false → c.op ≠ .claimJob →
      i.status = .processing ∧ c.op = (outcomeOf i (processJob i)).op) : j.Spent := by
  have hb := h.budget
  have hatt := h.attemptCount
  have hrep := h.replayCount
  have hst := h.status
  have hout : c.op.isApi = false → c.op ≠ .claimJob →
      j.attemptCount = i.attemptCount ∧ j.totalAttemptCount = i.totalAttemptCount
        ∧ j.replayCount = i.replayCount → j.Spent := by
    rintro ha hn ⟨h1, h2, h3⟩
    obtain ⟨hp, hop⟩ := ho ha hn
    have hpos : 0 < i.attemptCount := Nat.pos_of_ne_zero fun h0 => by
      have := hi.queued.2 h0
      rw [hp] at this
      exact absurd this (by simp)
    have hq : j.status ≠ .queued := by
      rw [hst]
      cases hop' : c.op <;> simp [hop', JobOp.isApi, JobOp.status] at ha ⊢
    refine ⟨by rw [hb, h1, h2, h3, hi.total], by rw [h1, hb]; exact hi.within, ?_, ?_, ?_,
      hb ▸ hi.positive⟩
    · rw [h1]
      exact iff_of_false hq hpos.ne'
    · intro hr
      rcases outcome_budget i hi.within hpos with ⟨-, hlt⟩ | ⟨hne, -⟩
      · rw [h1, hb]
        exact hlt
      · rw [hst, hop] at hr
        exact absurd hr hne
    · intro hr
      rcases outcome_budget i hi.within hpos with ⟨he, -⟩ | ⟨-, heq⟩
      · rw [hst, hop, he] at hr
        simp at hr
      · rw [h1, hb]
        exact heq
  rcases c with ⟨k, now, op⟩
  cases h with
  | update hu hcond =>
    cases op <;> simp only [JobOp.update, Option.some.injEq, reduceCtorEq] at hu <;> subst hu
    case claimJob =>
      have hlt : i.attemptCount < i.budget := by
        have hp := hc rfl
        simp only [claimJobUpdate, Job.claimable, hp, decide_false, Bool.false_and, Bool.or_false,
          Bool.or_eq_true, decide_eq_true_eq] at hcond
        rcases hcond with hq | hr
        · rw [hi.queued.1 hq]
          exact hi.positive
        · exact hi.left hr
      refine ⟨?_, ?_, ?_, ?_, ?_, hb ▸ hi.positive⟩
      · rw [hb]
        simp only [claimJobUpdate, hi.total]
        omega
      · rw [hb]
        exact hlt
      · simp [claimJobUpdate]
      · simp [claimJobUpdate]
      · simp [claimJobUpdate]
    case claimReplay =>
      have hend : i.attemptCount = i.budget :=
        hi.ended (.inr (by simpa [claimReplayUpdate] using hcond))
      refine ⟨?_, ?_, ?_, ?_, ?_, hb ▸ hi.positive⟩
      · rw [hb]
        simp only [claimReplayUpdate, hi.total, hend, Nat.mul_succ, Nat.add_zero]
      · simp [claimReplayUpdate]
      · simp [claimReplayUpdate]
      · simp [claimReplayUpdate]
      · simp [claimReplayUpdate]
    all_goals exact hout rfl (by simp) ⟨rfl, rfl, rfl⟩

namespace World

variable {l : List Entry} {s t : World} {w : ℕ}

/-- A worker whose claim is executed gets its reply, its outcome write is executed, and it does not
die between the two. -/
def Uninterrupted (s : World) (a : WorldAction) (_ : World) : Prop :=
  match a with
  | .work _ (.claimJob reply) => reply ≠ .lost
  | .work _ (.record reply) => reply.executed = true
  | .crash w => (s.workers w).active = none
  | _ => True

instance (s : World) (a : WorldAction) (t : World) : Decidable (Uninterrupted s a t) :=
  match a with
  | .work _ (.claimJob _) => inferInstanceAs (Decidable (_ ≠ _))
  | .work _ (.record _) | .crash _ => inferInstanceAs (Decidable (_ = _))
  | .work _ .getJobById | .work _ .processJob | .work _ (.publish _ _) | .work _ .requeue
  | .work _ .ack | .pass _ _ | .commit _ _ | .dispatch _ _ | .expire | .deliver _ _ =>
    isTrue trivial

def Reliable (s : World) (a : WorldAction) (t : World) : Prop :=
  AllOnTime s a t ∧ Uninterrupted s a t

/-- An active worker's copy of its job is the row, and a row in `PROCESSING` is the copy of one. -/
structure Exact (l : List Entry) (s : World) : Prop where
  fencing : ∀ k, Fencing k l s
  rows : ∀ j ∈ s.db.jobs, j.Spent
  copy : ∀ w job, (s.workers w).active = some job → s.db.jobs.get job.id = some job
  outcome : ∀ w msg job outcome, (s.workers w).handler = some ⟨msg, .record job outcome⟩ →
    outcome = outcomeOf job (processJob job)
  attended : ∀ j ∈ s.db.jobs, j.status = .processing → ∃ w, (s.workers w).active = some j

theorem Exact.status (hI : Exact l s) {job : Job} (ha : (s.workers w).active = some job)
    (ho : s.OnTime w) : job.status = .processing := by
  obtain ⟨-, row, hrow, hst, -⟩ := (hI.fencing job.id).latest w job ha rfl ho
  obtain rfl : row = job := Option.some.inj (hrow.symm.trans (hI.copy w job ha))
  exact hst

theorem Exact.jobId (hI : Exact l s) {msg : JobCreatedMessage} {phase : HandlerPhase} {job : Job}
    (hh : (s.workers w).handler = some ⟨msg, phase⟩) (ha : (s.workers w).active = some job) :
    msg.jobId = job.id := by
  have := (hI.fencing job.id).job w job ha
  rw [hh] at this
  exact congrArg JobCreatedMessage.jobId (Option.some.inj this)

theorem Exact.copy_step {a : WorldAction} (hI : Exact l s) (hR : Reliable s a t)
    (h : s.step a = some t) {job : Job} (ha : (t.workers w).active = some job) :
    t.db.jobs.get job.id = some job := by
  rcases active_of_step h ha with ⟨hs, -, hn⟩ | ⟨rfl, msg, hh, -, hj⟩
  · rw [get_of_step h fun e he =>
      (hI.fencing job.id).unwritten hR.1.prompt h hs rfl (hR.1.2 w) he (hn e he)]
    exact hI.copy w job hs
  · exact (claimed_step h hh hj).2.1

/-- A claim takes no job in `PROCESSING`, and an outcome written is that of the row. -/
theorem Exact.row_step {a : WorldAction} (hI : Exact l s) (hR : Reliable s a t)
    (h : s.step a = some t) {e : Entry} (he : e ∈ s.shown a t) (hw : e.wrote = true) {i : Job}
    (hi : s.db.jobs.get e.call.id = some i) :
    (e.call.op = .claimJob → i.status ≠ .processing)
      ∧ (e.call.op.isApi = false → e.call.op ≠ .claimJob →
        i.status = .processing ∧ e.call.op = (outcomeOf i (processJob i)).op) := by
  refine ⟨fun ho hst => ?_, fun ha ho => ?_⟩
  · obtain ⟨v, hv⟩ := hI.attended i (Table.mem_of_get hi) hst
    refine (hI.fencing i.id).unwritten hR.1.prompt h hv rfl (hR.1.2 v) he (fun hev => ?_) hw
      (Table.key_of_get hi).symm
    rcases shown_cases h he with ⟨-, -, -, hapi⟩ | ⟨w, a', -, hew, hc, -⟩
    · simp [ho, JobOp.isApi] at hapi
    · obtain rfl : w = v := Option.some.inj (hew.symm.trans hev)
      rcases Worker.call_cases hc with ⟨msg, reply, hh, -⟩
        | ⟨msg, job, outcome, reply, -, -, -, hce⟩
      · simp [Worker.active, hh] at hv
      · rw [hce] at ho
        cases outcome <;> simp [Outcome.op] at ho
  · rcases shown_cases h he with ⟨-, -, -, hapi⟩ | ⟨w, a', -, -, hc, -⟩
    · rw [ha] at hapi
      exact absurd hapi (by simp)
    rcases Worker.call_cases hc with ⟨msg, reply, -, -, -, hce⟩
      | ⟨msg, job, outcome, reply, hh, -, -, hce⟩
    · exact absurd (by rw [hce]) ho
    · have hact := active_record hh
      rw [hce] at hi ⊢
      obtain rfl : job = i := by
        have hrow := hI.copy w job hact
        rw [← hI.jobId hh hact] at hrow
        exact Option.some.inj (hrow.symm.trans hi)
      exact ⟨hI.status hact (hR.1.2 w), congrArg Outcome.op (hI.outcome w msg job outcome hh)⟩

/-- A worker that is active stays so until its outcome is written. -/
theorem Exact.active_step {a : WorldAction} (hI : Exact l s) (hR : Reliable s a t)
    (h : s.step a = some t) {job : Job} (ha : (s.workers w).active = some job)
    (hn : ∀ e ∈ s.shown a t, e.wrote = true → e.call.id ≠ job.id) :
    (t.workers w).active = some job := by
  by_cases hw : mover a = some w
  swap
  · rw [workers_of_step h hw, ha]
  cases step_cases h with
  | delivered _ hidle =>
    obtain rfl := Option.some.inj hw
    simp [Worker.active, hidle] at ha
  | crashed =>
    obtain rfl := Option.some.inj hw
    rw [hR.2] at ha
    exact absurd ha (by simp)
  | @worked w a hd hs =>
    obtain rfl := Option.some.inj hw
    obtain ⟨msg, phase, hh, hst⟩ := Worker.handler_of_step hs
    cases phase with
    | processJob job' =>
      cases hst
      simpa [handled, Worker.active, Worker.go, hh] using ha
    | record job' outcome =>
      obtain rfl : job' = job := by simpa [Worker.active, hh] using ha
      obtain ⟨reply, rfl⟩ : ∃ reply, a = .record reply := by cases hst <;> exact ⟨_, rfl⟩
      have hc : (s.workers w).call s.now (.record reply)
          = some ⟨msg.jobId, s.now, outcome.op⟩ := by
        simp only [Worker.call, hh, show reply.executed = true from hR.2, if_true]
      obtain ⟨u, hu, hcond⟩ := outcome.update s.now
      have hrow : s.db.jobs.get msg.jobId = some job' := by
        rw [hI.jobId hh ha]
        exact hI.copy w job' ha
      have hwrote : Call.succeeds s.db.jobs ⟨msg.jobId, s.now, outcome.op⟩ = true :=
        (Call.succeeds_iff hu _).2 ⟨job', hrow, (hcond job').2 (hI.status ha (hR.1.2 w))⟩
      have hmem := List.mem_map_of_mem (f := fun c => (⟨some w, c, c.succeeds s.db.jobs,
        HandlerAction.replied (.record reply)⟩ : Entry)) (Option.mem_toList.2 hc)
      exact absurd (hI.jobId hh ha) (hn _ hmem hwrote)
    | _ => simp [Worker.active, hh] at ha
  | _ => simp [mover] at hw

theorem Exact.attended_step {a : WorldAction} (hI : Exact l s) (hR : Reliable s a t)
    (h : s.step a = some t) {j : Job} (hj : t.db.jobs.get j.id = some j)
    (hst : j.status = .processing) : ∃ w, (t.workers w).active = some j := by
  rcases row_cases h j.id with ⟨hs, hn⟩ | ⟨e, i, he, hw, hk, hi, hwr⟩
  · obtain ⟨w, ha⟩ := hI.attended j (Table.mem_of_get (hs ▸ hj)) hst
    exact ⟨w, hI.active_step hR h ha hn⟩
  obtain rfl : i = j := Option.some.inj (hi.symm.trans hj)
  have hop : e.call.op = .claimJob := by
    have := hwr.status
    rw [hst] at this
    cases ho : e.call.op <;> simp [ho, JobOp.status] at this ⊢
  have hmem : e ∈ s.shown a t := by simp [he]
  rcases shown_cases h hmem with ⟨-, -, -, hapi⟩ | ⟨w, a', rfl, -, hc, -⟩
  · simp [hop, JobOp.isApi] at hapi
  rcases Worker.call_cases hc with ⟨msg, reply, hh, rfl, hx, hce⟩
    | ⟨msg, job, outcome, reply, -, -, -, hce⟩
  · obtain rfl : reply = .ok := by
      have hlost : reply ≠ .lost := hR.2
      cases reply <;> simp [Reply.executed] at hx hlost ⊢
    rcases hcl : (claimJob s.now s.db.jobs msg.jobId).2 with _ | job
    · have hwrote := wrote_of_shown h hmem
      rw [hw, hce, Call.succeeds] at hwrote
      simp only [Call.run, hcl, Option.isSome_none] at hwrote
      exact absurd hwrote (by simp)
    · obtain ⟨hid, hrow, -, -⟩ := claimed_step h hh hcl
      refine ⟨w, ?_⟩
      cases step_cases h with
      | worked hs =>
        have hstep := Worker.step_cases hh hs
        cases hstep with
        | claimed hj' =>
          have hk' : msg.jobId = i.id := by rw [← hk, hce]
          rw [hid, hk', hi] at hrow
          simp only [handled, Function.update_self, Worker.active]
          rw [← hj', hcl, hrow]
        | notClaimed hj' => rw [hcl] at hj'; exact absurd hj' (by simp)
        | claimThrew hr => exact absurd rfl hr
  · rw [hce] at hop
    cases outcome <;> simp [Outcome.op] at hop

theorem Exact.step {a : WorldAction} (hI : Exact l s) (hR : Reliable s a t)
    (h : s.step a = some t) : Exact (l ++ s.shown a t) t := by
  refine ⟨fun k => (hI.fencing k).step hR.1.prompt h, fun j hj => ?_,
    fun w job ha => hI.copy_step hR h ha, fun w msg job outcome hh => ?_,
    fun j hj hst => hI.attended_step hR h (Table.get_of_mem hj) hst⟩
  · have hj := Table.get_of_mem hj
    rcases row_cases h j.id with ⟨hs, -⟩ | ⟨e, i, he, hw, hk, hi, hwr⟩
    · exact hI.rows j (Table.mem_of_get (hs ▸ hj))
    obtain rfl : i = j := Option.some.inj (hi.symm.trans hj)
    rcases hg : s.db.jobs.get i.id with _ | i₀ <;> rw [hg] at hwr
    · cases hwr with
      | create => exact spent_newJob _ _ _ _
    · obtain ⟨hc, ho⟩ := hI.row_step hR h (by simp [he]) hw (hk ▸ hg)
      exact (hI.rows i₀ (Table.mem_of_get hg)).writes hwr hc ho
  · rcases record_of_step h hh with hs | ho
    · exact hI.outcome w msg job outcome hs
    · exact ho

theorem exact_init : Exact [] init where
  fencing _ := fencing_init
  rows _ h := by simp [init, Db.init, Table.empty, Table.mem_def] at h
  copy _ _ h := by simp [init, Worker.active] at h
  outcome _ _ _ _ h := by simp [init] at h
  attended _ h := by simp [init, Db.init, Table.empty, Table.mem_def] at h

/-- While no attempt is lost, every job has had as many attempts as its payload asks for in each
cycle that is over, and no more in the one that is not; and one in `PROCESSING` has its worker. -/
theorem attempts_spent {as : List WorldAction} (h : exec step init as = some s)
    (hR : Steps step Reliable init as) : ∀ j ∈ s.db.jobs, j.Spent
      ∧ (j.status = .processing → ∃ w, (s.workers w).active = some j) := by
  have hstep : ∀ l s a t, Exact l s → Reliable s a t → step s a = some t →
      Exact (l ++ shown s a t) t := fun l s a t hI hR h => hI.step hR h
  have hI := exec_trace_inv_of_steps hstep exact_init hR h
  exact fun j hj => ⟨hI.rows j hj, hI.attended j hj⟩

/-- A job that always fails: five attempts, the reply to the outcome of the first lost, then a
replay and one more. -/
def replayedFailure : List WorldAction :=
  [.commit ⟨1, 0, .createJob "email" [("shouldFail", .bool true)]⟩ 7,
    .dispatch 0 (.claim {} .ok), .dispatch 0 (.publish .ok),
    .dispatch 0 (.markPublished .ok (.value "")), .deliver 0 ⟨1⟩, .work 0 (.claimJob .ok),
    .work 0 .processJob, .work 0 (.record .lost), .pass 1000 (seconds 1), .work 0 .requeue]
    ++ (List.range 3).flatMap (fun n => [.deliver 0 ⟨1⟩, .work 0 (.claimJob .ok),
      .work 0 .processJob, .work 0 (.record .ok), .work 0 (.publish true true), .work 0 .ack,
      .pass 20000 (seconds (20 * (n + 1))), .expire])
    ++ [.deliver 0 ⟨1⟩, .work 0 (.claimJob .ok), .work 0 .processJob, .work 0 (.record .ok),
      .work 0 (.publish true true), .work 0 .ack, .commit ⟨1, seconds 70, .claimReplay⟩ 8,
      .dispatch 0 (.claim {} .ok), .dispatch 0 (.publish .ok), .deliver 0 ⟨1⟩,
      .work 0 (.claimJob .ok)]

theorem attempts_spent_replayedFailure : ∃ s, exec step init replayedFailure = some s
    ∧ s.db.jobs.rows.map (fun j => (j.status, j.totalAttemptCount, j.replayCount, j.attemptCount))
      = [(.processing, 6, 1, 1)]
    ∧ ∀ j ∈ s.db.jobs, j.Spent ∧ (j.status = .processing → ∃ w, (s.workers w).active = some j) := by
  have hT : Steps step AllOnTime init replayedFailure :=
    allOnTime_of_below (n := 1) (by decide) (by decide)
  have hU : Steps step Uninterrupted init replayedFailure := by decide
  obtain ⟨s, hs⟩ : ∃ s, exec step init replayedFailure = some s :=
    Option.isSome_iff_exists.1 (by decide)
  have hend : (exec step init replayedFailure).map (fun s => s.db.jobs.rows.map fun j =>
      (j.status, j.totalAttemptCount, j.replayCount, j.attemptCount))
      = some [(.processing, 6, 1, 1)] := by decide
  rw [hs, Option.map_some, Option.some.injEq] at hend
  exact ⟨s, hs, hend, attempts_spent hs (hT.and hU)⟩

end World

end DeadLetter
