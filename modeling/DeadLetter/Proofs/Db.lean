import DeadLetter.Db
import DeadLetter.Proofs.History
import DeadLetter.Proofs.Outbox

/-!
# Events and jobs are counted together

Every job has one event for its creation and one for each replay (`Db.Counted`). Worker
statements leave `replay_count` alone and dispatcher steps leave the events' jobs alone, so only a
commit moves either side, and it moves both.
-/

namespace DeadLetter

/-- Some rows are updated: none is added, removed, given to another job or made unpublished. -/
def OnlyUpdated (events events' : OutboxEvents) : Prop :=
  ∃ (p : OutboxEvent → Bool) (f : OutboxEvent → OutboxEvent) (hf : ∀ e, (f e).id = e.id),
    events' = events.update p f hf
      ∧ ∀ e, (f e).jobId = e.jobId ∧ ((f e).publishedAt = none → e.publishedAt = none)

theorem onlyUpdated_refl (events : OutboxEvents) : OnlyUpdated events events :=
  ⟨fun _ => false, id, fun _ => rfl, (Table.update_of_false _ fun _ _ => rfl).symm,
    fun _ => ⟨rfl, id⟩⟩

theorem Outbox.onlyUpdated_of_step {now : ℤ} {s t : Outbox} {r : ℕ} {a : OutboxAction}
    (h : s.step now r a = some t) : OnlyUpdated s.events t.events := by
  have hclaim : ∀ scan, OnlyUpdated s.events
      (claimPendingOutboxEvents now s.events batchSize scan).1 := fun _ =>
    ⟨_, fun e => { e with claimedAt := some now }, fun _ => rfl, rfl, fun _ => ⟨rfl, id⟩⟩
  have hpub : ∀ id, OnlyUpdated s.events (markOutboxPublished now s.events id) := fun _ =>
    ⟨_, fun e => { e with publishedAt := some now }, fun _ => rfl, rfl,
      fun _ => ⟨rfl, fun h => by simp at h⟩⟩
  have hfail : ∀ id m, OnlyUpdated s.events (markOutboxFailed s.events id m) := fun _ m =>
    ⟨_, fun e => { e with claimedAt := none, attempts := e.attempts + 1, lastError := some m },
      fun _ => rfl, rfl, fun _ => ⟨rfl, id⟩⟩
  cases Outbox.step_cases h with
  | claimed => exact hclaim _
  | claimLost => exact hclaim _
  | marked => exact hpub _
  | failed => exact hfail _ _
  | markThrew =>
    simp only
    split_ifs
    · exact hpub _
    · exact onlyUpdated_refl _
  | failThrew =>
    simp only
    split_ifs
    · exact hfail _ _
    · exact onlyUpdated_refl _
  | _ => exact onlyUpdated_refl _

theorem Outbox.jobIds_of_step {now : ℤ} {s t : Outbox} {r : ℕ} {a : OutboxAction}
    (h : s.step now r a = some t) :
    t.events.rows.map (·.jobId) = s.events.rows.map (·.jobId) := by
  obtain ⟨p, f, hf, ht, hk⟩ := Outbox.onlyUpdated_of_step h
  rw [ht]
  exact Table.map_update hf fun e => (hk e).1

def JobOp.status : JobOp → JobStatus
  | .createJob _ _ | .claimReplay => .queued
  | .claimJob => .processing
  | .markCompleted => .completed
  | .markRetrying _ => .retrying
  | .markDeadLettered _ => .deadLettered

theorem Writes.status {c : Call} {o : Option Job} {j : Job} (h : Writes c o j) :
    j.status = c.op.status := by
  rcases c with ⟨k, now, op⟩
  cases h with
  | create ho => cases ho; rfl
  | update hu =>
    cases op <;> simp only [JobOp.update, Option.some.injEq, reduceCtorEq] at hu <;> subst hu <;>
      rfl

theorem Writes.maxAttempts {c : Call} {i j : Job} (h : Writes c (some i) j) :
    j.maxAttempts = i.maxAttempts := by
  rcases c with ⟨k, now, op⟩
  cases h with
  | update hu =>
    cases op <;> simp only [JobOp.update, Option.some.injEq, reduceCtorEq] at hu <;> subst hu <;>
      rfl

theorem Writes.attemptCount {c : Call} {i j : Job} (h : Writes c (some i) j) :
    j.attemptCount = if c.op = .claimReplay then 0
      else if c.op = .claimJob then i.attemptCount + 1 else i.attemptCount := by
  rcases c with ⟨k, now, op⟩
  cases h with
  | update hu =>
    cases op <;> simp only [JobOp.update, Option.some.injEq, reduceCtorEq] at hu <;> subst hu <;>
      rfl

theorem Writes.updatedAt {c : Call} {o : Option Job} {j : Job} (h : Writes c o j) :
    j.updatedAt = c.now := by
  rcases c with ⟨k, now, op⟩
  cases h with
  | create => rfl
  | update hu =>
    cases op <;> simp only [JobOp.update, Option.some.injEq, reduceCtorEq] at hu <;> subst hu <;>
      rfl

/-- Only a replay touches `replay_count`. -/
theorem Writes.replayCount {c : Call} {i j : Job} (h : Writes c (some i) j) :
    j.replayCount = i.replayCount + if c.op = .claimReplay then 1 else 0 := by
  rcases c with ⟨k, now, op⟩
  cases h with
  | update hu =>
    cases op <;> simp only [JobOp.update, Option.some.injEq, reduceCtorEq] at hu <;> subst hu <;>
      rfl

/-- Only a replay changes a dead-lettered row. -/
theorem Writes.op_of_deadLettered {c : Call} {i j : Job} (h : Writes c (some i) j)
    (hi : i.status = .deadLettered) : c.op = .claimReplay := by
  cases h with
  | update hu hc =>
    rcases c with ⟨k, now, op⟩
    cases op <;> simp only [JobOp.update, Option.some.injEq, reduceCtorEq] at hu ⊢ <;>
      subst hu <;> simp [claimJobUpdate, markCompletedUpdate, markRetryingUpdate,
        markDeadLetteredUpdate, Job.claimable, hi] at hc

/-- Only a claim changes a row in `RETRYING`. -/
theorem Writes.op_of_retrying {c : Call} {i j : Job} (h : Writes c (some i) j)
    (hi : i.status = .retrying) : c.op = .claimJob := by
  cases h with
  | update hu hc =>
    rcases c with ⟨k, now, op⟩
    cases op <;> simp only [JobOp.update, Option.some.injEq, reduceCtorEq] at hu ⊢ <;>
      subst hu <;> simp [markCompletedUpdate, markRetryingUpdate, markDeadLetteredUpdate,
        claimReplayUpdate, hi] at hc

theorem Writes.op_of_none {c : Call} {j : Job} (h : Writes c none j) :
    ∃ type payload, c.op = .createJob type payload := by
  cases h with
  | create ho => exact ⟨_, _, ho⟩

namespace Db

variable {s t : Db}

def eventsOf (s : Db) (k : Uuid) : ℕ := (s.outbox.events.rows.map (·.jobId)).count k

def submissions (s : Db) (k : Uuid) : ℕ :=
  match s.jobs.get k with
  | none => 0
  | some j => 1 + j.replayCount

def Counted (s : Db) : Prop := ∀ k, s.eventsOf k = s.submissions k

theorem commit_eq_some {c : Call} {eventId : Uuid} (h : s.commit c eventId = some t) :
    ∃ job, (c.run s.jobs).2 = some job ∧ t.jobs = (c.run s.jobs).1
      ∧ t.outbox.runs = s.outbox.runs
      ∧ insertOutboxEvent c.now s.outbox.events eventId job.id = some t.outbox.events := by
  unfold commit at h
  rcases hr : c.run s.jobs with ⟨jobs, _ | job⟩ <;> rw [hr] at h
  · simp at h
  · obtain ⟨events, he, rfl⟩ := Option.map_eq_some_iff.1 h
    exact ⟨job, rfl, rfl, rfl, he⟩

theorem id_of_run {c : Call} {jobs : Jobs} {j : Job} (h : (c.run jobs).2 = some j) :
    j.id = c.id := by
  have := (Call.writes h).2 c.id
  rw [if_pos rfl] at this
  exact Table.key_of_get this

/-- A call writes one row, and the count due for its job grows by one where it is the API's. -/
theorem submissions_of_run {c : Call} {j : Job} (h : (c.run s.jobs).2 = some j)
    (ht : t.jobs = (c.run s.jobs).1) (k : Uuid) :
    t.submissions k = s.submissions k + if k = c.id ∧ c.op.isApi then 1 else 0 := by
  obtain ⟨hw, hg⟩ := Call.writes h
  unfold submissions
  rw [ht, hg k]
  by_cases hk : k = c.id
  swap
  · simp [hk]
  subst hk
  simp only [if_true, true_and]
  generalize s.jobs.get c.id = i at hw
  cases i with
  | none =>
    obtain ⟨type, payload, ho⟩ := hw.op_of_none
    cases hw with
    | create => simp [newJob, ho, JobOp.isApi]
  | some i =>
    have hr := hw.replayCount
    cases hw with
    | update hu =>
      simp only [hr]
      cases ho : c.op <;> simp [ho, JobOp.isApi, JobOp.update] at hu ⊢
      omega

theorem Counted.step {a : DbAction} (hI : s.Counted) (h : s.step a = some t) : t.Counted := by
  intro k
  cases a with
  | commit c eventId =>
    simp only [Db.step] at h
    split_ifs at h with hc
    obtain ⟨job, hj, hjobs, -, he⟩ := commit_eq_some h
    rw [submissions_of_run hj hjobs, ← hI k, eventsOf, (Table.insert_eq_some.1 he).2,
      List.map_append, List.count_append, ← id_of_run hj]
    by_cases hk : k = job.id
    · simp [eventsOf, newOutboxEvent, hc, hk]
    · simp [eventsOf, newOutboxEvent, hk, Ne.symm hk]
  | call c =>
    simp only [Db.step] at h
    split_ifs at h with hc
    obtain rfl := Option.some.inj h
    rcases hr : (c.run s.jobs).2 with _ | j
    · rw [Call.run_of_none hr]
      exact hI k
    · rw [submissions_of_run hr rfl, ← hI k]
      simp [hc, eventsOf]
  | dispatch now r a =>
    obtain ⟨outbox, ho, rfl⟩ := Option.map_eq_some_iff.1 h
    unfold eventsOf
    rw [Outbox.jobIds_of_step ho]
    exact hI k

theorem outbox_of_call {c : Call} (h : s.step (.call c) = some t) : t.outbox = s.outbox := by
  simp only [Db.step] at h
  split_ifs at h
  exact (Option.some.inj h) ▸ rfl

/-- A worker's statement adds no job, and touches no `replay_count`. -/
theorem replayCounts_of_call {c : Call} (h : s.step (.call c) = some t) :
    t.jobs.rows.map (·.replayCount) = s.jobs.rows.map (·.replayCount) := by
  simp only [Db.step] at h
  split_ifs at h with hc
  obtain rfl := Option.some.inj h
  rcases c with ⟨k, now, op⟩
  rcases hu : op.update now with _ | u
  · cases op <;> simp [JobOp.update, JobOp.isApi] at hu hc
  · simp only
    rw [Call.run_update hu]
    refine Table.map_update u.set_id fun j => ?_
    cases op <;> simp only [JobOp.update, Option.some.injEq, reduceCtorEq] at hu <;> subst hu
    case claimReplay => simp [JobOp.isApi] at hc
    all_goals rfl

theorem known_step {a : DbAction} (hk : s.outbox.Known) (h : s.step a = some t) :
    t.outbox.Known := by
  cases a with
  | commit c eventId =>
    simp only [Db.step] at h
    split_ifs at h
    obtain ⟨job, -, -, hr, he⟩ := commit_eq_some h
    have := hk.insert he
    rwa [← hr] at this
  | call c =>
    simp only [Db.step] at h
    split_ifs at h
    obtain rfl := Option.some.inj h
    exact hk
  | dispatch now r a =>
    obtain ⟨outbox, ho, rfl⟩ := Option.map_eq_some_iff.1 h
    exact hk.step ho

theorem counted_init : init.Counted := fun _ => rfl

theorem Counted.mem_jobs (hI : s.Counted) {e : OutboxEvent} (he : e ∈ s.outbox.events) :
    ∃ j ∈ s.jobs, j.id = e.jobId := by
  have hpos : 0 < s.eventsOf e.jobId :=
    List.count_pos_iff.2 (List.mem_map_of_mem (f := fun e : OutboxEvent => e.jobId) he)
  rw [hI, submissions] at hpos
  rcases hg : s.jobs.get e.jobId with _ | j
  · simp [hg] at hpos
  · exact ⟨j, Table.mem_of_get hg, Table.key_of_get hg⟩

end Db

end DeadLetter
