import DeadLetter.Api
import DeadLetter.Proofs.Payload
import DeadLetter.Proofs.Totals

/-!
# What the statistics count

`getStats` adds up the rows as they are, and the calls that have changed a row are what it comes
to: a job leaves `COMPLETED` never, and `DEAD_LETTERED` by a replay only.
-/

namespace DeadLetter

open Transition

theorem Writes.totalAttemptCount {c : Call} {i j : Job} (h : Writes c (some i) j) :
    j.totalAttemptCount = i.totalAttemptCount + if c.op.status = .processing then 1 else 0 := by
  rcases c with ⟨k, now, op⟩
  cases h with
  | update hu =>
    cases op <;> simp only [JobOp.update, Option.some.injEq, reduceCtorEq] at hu <;> subst hu <;>
      rfl

theorem Writes.not_completed {c : Call} {i j : Job} (h : Writes c (some i) j) :
    i.status ≠ .completed := by
  cases h with
  | update hu hc =>
    rcases c with ⟨k, now, op⟩
    intro hi
    cases op <;> simp only [JobOp.update, Option.some.injEq, reduceCtorEq] at hu <;>
      subst hu <;> simp [claimJobUpdate, markCompletedUpdate, markRetryingUpdate,
        markDeadLetteredUpdate, claimReplayUpdate, Job.claimable, hi] at hc

theorem Writes.deadLettered_iff {c : Call} {i j : Job} (h : Writes c (some i) j) :
    i.status = .deadLettered ↔ c.op = .claimReplay := by
  refine ⟨h.op_of_deadLettered, fun ho => ?_⟩
  cases h with
  | update hu hc =>
    rcases c with ⟨k, now, op⟩
    obtain rfl : op = .claimReplay := ho
    simp only [JobOp.update, Option.some.injEq] at hu
    subst hu
    simpa [claimReplayUpdate] using hc

/-- The six counts are of all jobs. -/
theorem countP_statuses (l : List Job) : l.countP (fun j => j.status = .queued)
    + l.countP (fun j => j.status = .processing) + l.countP (fun j => j.status = .completed)
    + l.countP (fun j => j.status = .failed) + l.countP (fun j => j.status = .retrying)
    + l.countP (fun j => j.status = .deadLettered) = l.length := by
  induction l with
  | nil => rfl
  | cons j l ih =>
    simp only [List.countP_cons, List.length_cons]
    cases j.status <;> simp <;> omega

/-- What a call that changes a row does to each of the statistics. -/
structure Shifts (c : Call) (db db' : Db) : Prop where
  totalJobs : (getStats db').totalJobs + (if c.op = .claimReplay then 1 else 0)
    = (getStats db).totalJobs + if c.op.status = .queued then 1 else 0
  totalReplays : (getStats db').totalReplays
    = (getStats db).totalReplays + if c.op = .claimReplay then 1 else 0
  totalAttempts : (getStats db').totalAttempts
    = (getStats db).totalAttempts + if c.op.status = .processing then 1 else 0
  completed : (getStats db').byStatus .completed
    = (getStats db).byStatus .completed + if c.op.status = .completed then 1 else 0
  deadLettered : (getStats db').byStatus .deadLettered + (if c.op = .claimReplay then 1 else 0)
    = (getStats db).byStatus .deadLettered + if c.op.status = .deadLettered then 1 else 0
  failed : (getStats db').byStatus .failed ≤ (getStats db).byStatus .failed

theorem shifts_of_run {c : Call} {db db' : Db} {j : Job} (hr : (c.run db.jobs).2 = some j)
    (hjobs : db'.jobs = (c.run db.jobs).1) : Shifts c db db' := by
  have hw := (Call.writes hr).1
  have hst := hw.status
  rcases hg : db.jobs.get c.id with _ | i <;> rw [hg] at hw
  · have hrows := Call.rows_of_create hg hr
    obtain ⟨type, payload, ho⟩ := hw.op_of_none
    cases hw with
    | create =>
      constructor <;> simp [getStats, hjobs, hrows, ho, newJob, JobOp.status]
  · have hlen : db'.jobs.rows.length = db.jobs.rows.length := by
      rw [hjobs, (Call.replace_of_run hg hr).1, Table.length_replace]
    have hq : c.op.status = .queued ↔ c.op = .claimReplay := by
      cases hw with
      | update hu => cases ho : c.op <;> simp [ho, JobOp.update, JobOp.status] at hu ⊢
    have hrep := Call.sum_run (·.replayCount) hg hr
    have htot := Call.sum_run (·.totalAttemptCount) hg hr
    have hcount := fun st => Call.countP_run (fun j => decide (j.status = st)) hg hr
    rw [← hjobs] at hrep htot
    simp only [← hjobs, hst, decide_eq_true_eq] at hcount
    refine ⟨?_, ?_, ?_, ?_, ?_, ?_⟩
    · simp only [getStats, hlen, hq]
    · have := hw.replayCount
      simp only [getStats]
      omega
    · have := hw.totalAttemptCount
      simp only [getStats]
      omega
    · have := hcount .completed
      rw [if_neg hw.not_completed, Nat.add_zero] at this
      exact this
    · have := hcount .deadLettered
      simp only [hw.deadLettered_iff] at this
      exact this
    · have := hcount .failed
      rw [if_neg (show c.op.status ≠ .failed by cases c.op <;> simp [JobOp.status])] at this
      exact (Nat.le_add_right _ _).trans this.le

namespace World

variable {l : List Entry} {s t : World}

/-- The calls that have put a job in this status. -/
def writesTo (l : List Entry) (st : JobStatus) : ℕ :=
  l.countP fun e => e.wrote && e.call.op.status = st

def replayed (l : List Entry) : ℕ := l.countP fun e => e.wrote && e.call.op = .claimReplay

/-- The statistics are what the calls that changed a row come to. -/
structure Tallied (l : List Entry) (s : World) : Prop where
  submissions : (getStats s.db).totalJobs + (getStats s.db).totalReplays = writesTo l .queued
  replays : (getStats s.db).totalReplays = replayed l
  attempts : (getStats s.db).totalAttempts = writesTo l .processing
  completed : (getStats s.db).byStatus .completed = writesTo l .completed
  deadLettered : (getStats s.db).byStatus .deadLettered + (getStats s.db).totalReplays
    = writesTo l .deadLettered
  failed : (getStats s.db).byStatus .failed = 0
  events : s.db.outbox.events.rows.length
    = (getStats s.db).totalJobs + (getStats s.db).totalReplays

theorem replayed_append (l m : List Entry) : replayed (l ++ m) = replayed l + replayed m :=
  List.countP_append

theorem writesTo_append (l m : List Entry) (st : JobStatus) :
    writesTo (l ++ m) st = writesTo l st + writesTo m st :=
  List.countP_append

theorem writesTo_entry {e : Entry} (hw : e.wrote = true) (st : JobStatus) :
    writesTo [e] st = if e.call.op.status = st then 1 else 0 := by
  simp [writesTo, hw]

/-- The events are one more for each call of the API that changes a row. -/
theorem events_of_step {a : WorldAction} (h : s.step a = some t) :
    t.db.outbox.events.rows.length = s.db.outbox.events.rows.length
      + (s.shown a t).countP fun e => e.wrote && e.call.op.status = .queued := by
  cases step_cases h with
  | @committed c eventId db ha hc =>
    obtain ⟨job, hj, -, -, hins⟩ := Db.commit_eq_some hc
    have hst : c.op.status = .queued := by
      cases ho : c.op <;> simp [ho, JobOp.isApi] at ha <;> rfl
    have hrows := (Table.insert_eq_some.1 hins).2
    have hs : c.succeeds s.db.jobs = true := by rw [Call.succeeds, hj]; rfl
    simp [shown, hst, hs, hrows]
  | @dispatched r a outbox ho =>
    have := congrArg List.length (Outbox.jobIds_of_step ho)
    simpa [shown] using this
  | @worked w a hd =>
    have hq : ∀ c ∈ (s.workers w).call s.now a, c.op.status ≠ .queued := fun c hc => by
      have := Worker.call_isApi hc
      cases ho : c.op <;> simp [ho, JobOp.isApi, JobOp.status] at this ⊢
    rcases hc : (s.workers w).call s.now a with _ | c
    · simp [shown, hc, handled, World.afterCall]
    · simp [shown, hc, handled, World.afterCall, hq c hc]
  | _ => rfl

theorem replayed_entry {e : Entry} (hw : e.wrote = true) :
    replayed [e] = if e.call.op = .claimReplay then 1 else 0 := by
  simp [replayed, hw]

/-- A step changes no row, or a call of it changes one. -/
theorem shifts_of_step {a : WorldAction} (h : s.step a = some t) :
    (t.db.jobs = s.db.jobs ∧ replayed (s.shown a t) = 0 ∧ ∀ st, writesTo (s.shown a t) st = 0)
      ∨ ∃ e, s.shown a t = [e] ∧ e.wrote = true ∧ Shifts e.call s.db t.db := by
  rcases jobs_of_step h with ⟨hn, hj⟩ | ⟨e, he, hj, hw⟩
  · rw [hn]
    exact .inl ⟨hj, rfl, fun _ => rfl⟩
  rcases hr : (e.call.run s.db.jobs).2 with _ | j
  · have hwf : e.wrote = false := by rw [hw, Call.succeeds, hr]; rfl
    rw [he]
    refine .inl ⟨by rw [hj, Call.run_of_none hr], ?_, fun st => ?_⟩
    · simp [replayed, hwf]
    · simp [writesTo, hwf]
  · exact .inr ⟨e, he, by rw [hw, Call.succeeds, hr]; rfl, shifts_of_run hr hj⟩

theorem Tallied.step {a : WorldAction} (hI : Tallied l s) (h : s.step a = some t) :
    Tallied (l ++ s.shown a t) t := by
  have hev : t.db.outbox.events.rows.length
      = s.db.outbox.events.rows.length + writesTo (s.shown a t) .queued := events_of_step h
  rcases shifts_of_step h with ⟨hj, hrep, hto⟩ | ⟨e, he, hw, hsh⟩
  · have hjobs : (getStats t.db).totalJobs = (getStats s.db).totalJobs
        ∧ (getStats t.db).totalReplays = (getStats s.db).totalReplays
        ∧ (getStats t.db).totalAttempts = (getStats s.db).totalAttempts
        ∧ (getStats t.db).byStatus = (getStats s.db).byStatus := by
      simp only [getStats, hj, and_self]
    obtain ⟨h1, h2, h3, h4⟩ := hjobs
    have hto' : ∀ st, writesTo (l ++ s.shown a t) st = writesTo l st := fun st => by
      rw [writesTo_append, hto, Nat.add_zero]
    refine ⟨?_, ?_, ?_, ?_, ?_, ?_, ?_⟩
    · rw [h1, h2, hto', hI.submissions]
    · rw [h2, replayed_append, hrep, Nat.add_zero, hI.replays]
    · rw [h3, hto', hI.attempts]
    · rw [h4, hto', hI.completed]
    · rw [h4, h2, hto', hI.deadLettered]
    · rw [h4, hI.failed]
    · rw [hev, hto, h1, h2, Nat.add_zero, hI.events]
  · have hle := hsh.failed
    have h1 := hsh.totalJobs
    have h2 := hsh.totalReplays
    have h3 := hsh.deadLettered
    rw [he, writesTo_entry hw] at hev
    rw [he]
    refine ⟨?_, ?_, ?_, ?_, ?_, ?_, ?_⟩
    · have := hI.submissions
      rw [writesTo_append, writesTo_entry hw]
      omega
    · rw [h2, replayed_append, replayed_entry hw, hI.replays]
    · rw [hsh.totalAttempts, writesTo_append, writesTo_entry hw, hI.attempts]
    · rw [hsh.completed, writesTo_append, writesTo_entry hw, hI.completed]
    · have := hI.deadLettered
      rw [writesTo_append, writesTo_entry hw]
      omega
    · have := hI.failed
      omega
    · have := hI.events
      omega

theorem tallied_init : Tallied [] init := by
  constructor <;> rfl

/-- In every state reached, the statistics are what the calls so far have done: as many attempts
as claims, as many jobs in each last status as have been put there, less those replayed; every job
is counted in one status, and for each submission and replay there is an event, pending or
published. -/
theorem stats_tallied {as : List WorldAction} (h : exec step init as = some s) :
    Tallied (trace step shown init as) s
      ∧ (getStats s.db).byStatus .queued + (getStats s.db).byStatus .processing
          + (getStats s.db).byStatus .completed + (getStats s.db).byStatus .failed
          + (getStats s.db).byStatus .retrying + (getStats s.db).byStatus .deadLettered
        = (getStats s.db).totalJobs
      ∧ (getStats s.db).pendingOutboxEvents
          + s.db.outbox.events.rows.countP (fun e => e.publishedAt ≠ none)
        = (getStats s.db).totalJobs + (getStats s.db).totalReplays := by
  have hstep : ∀ l s a t, Tallied l s → step s a = some t → Tallied (l ++ shown s a t) t :=
    fun l s a t hI h => hI.step h
  have hI : Tallied (trace step shown init as) s := exec_trace_inv hstep tallied_init h
  refine ⟨hI, countP_statuses s.db.jobs.rows, ?_⟩
  rw [← hI.events, List.length_eq_countP_add_countP fun e => e.publishedAt = none]
  simp [getStats]

theorem stats_tallied_takenOverFailure : ∃ s, exec step init takenOverFailure = some s
    ∧ (getStats s.db).totalAttempts = 2 ∧ (getStats s.db).byStatus .deadLettered = 1
    ∧ Tallied (trace step shown init takenOverFailure) s :=
  ⟨_, rfl, by decide, by decide, (@stats_tallied _ takenOverFailure rfl).1⟩

end World

end DeadLetter
