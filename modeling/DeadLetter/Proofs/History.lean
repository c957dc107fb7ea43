import DeadLetter.Calls

/-!
# A row equals its job's history

One statement writes at most one row, and what it sets there is what the history then counts
(`Matches.step`): a claim counts in both attempt counters, a replay starts a cycle, and only a
dead-lettering leaves the status a replay needs.
-/

namespace DeadLetter

open Transition

/-- The statement of a call that is not a creation. -/
def JobOp.update (now : ℤ) : JobOp → Option JobUpdate
  | .createJob _ _ => none
  | .claimJob => some (claimJobUpdate now)
  | .markCompleted => some (markCompletedUpdate now)
  | .markRetrying m => some (markRetryingUpdate now m)
  | .markDeadLettered m => some (markDeadLetteredUpdate now m)
  | .claimReplay => some (claimReplayUpdate now)

theorem rowOf_orThrow (fn : String) (k : Uuid) (r : Jobs × Option Job) :
    rowOf (orThrow fn k r) = r := by
  rcases r with ⟨jobs, _ | j⟩ <;> rfl

theorem Call.run_update {c : Call} {u : JobUpdate} (h : c.op.update c.now = some u)
    (jobs : Jobs) : c.run jobs = u.run jobs c.id := by
  rcases c with ⟨k, now, op⟩
  cases op <;> simp only [JobOp.update, Option.some.injEq, reduceCtorEq] at h <;> subst h
  · rfl
  · exact rowOf_orThrow _ _ _
  · exact rowOf_orThrow _ _ _
  · exact rowOf_orThrow _ _ _
  · rfl

theorem Call.run_createJob {c : Call} {type : String} {payload : Payload}
    (h : c.op = .createJob type payload) (jobs : Jobs) :
    (∃ jobs', jobs.insert (newJob c.now c.id type payload) = some jobs'
        ∧ c.run jobs = (jobs', some (newJob c.now c.id type payload)))
      ∨ c.run jobs = (jobs, none) := by
  unfold Call.run
  rw [h]
  simp only
  rcases hi : jobs.insert (newJob c.now c.id type payload) with _ | jobs'
  · exact .inr rfl
  · exact .inl ⟨jobs', rfl, rfl⟩

theorem Call.succeeds_iff {c : Call} {u : JobUpdate} (h : c.op.update c.now = some u)
    (jobs : Jobs) : c.succeeds jobs = true ↔ ∃ j, jobs.get c.id = some j ∧ u.cond j = true := by
  rw [Call.succeeds, Call.run_update h, Option.isSome_iff_exists]
  simp only [JobUpdate.run_snd_eq_some]
  constructor
  · rintro ⟨_, j, hj, hc, _⟩
    exact ⟨j, hj, hc⟩
  · rintro ⟨j, hj, hc⟩
    exact ⟨_, j, hj, hc, rfl⟩

theorem Call.run_of_none {c : Call} {jobs : Jobs} (h : (c.run jobs).2 = none) :
    (c.run jobs).1 = jobs := by
  rcases hu : c.op.update c.now with _ | u
  · obtain ⟨type, payload, ho⟩ : ∃ type payload, c.op = .createJob type payload := by
      cases ho : c.op <;> simp [ho, JobOp.update] at hu
      exact ⟨_, _, rfl⟩
    rcases c.run_createJob ho jobs with ⟨jobs', -, hr⟩ | hr <;> rw [hr] at h ⊢
    simp at h
  · rw [Call.run_update hu] at h ⊢
    exact u.run_of_none jobs c.id h

inductive Writes (c : Call) : Option Job → Job → Prop
  | create {type : String} {payload : Payload} (h : c.op = .createJob type payload) :
      Writes c none (newJob c.now c.id type payload)
  | update {u : JobUpdate} {j : Job} (h : c.op.update c.now = some u) (hj : u.cond j = true) :
      Writes c (some j) (u.set j)

theorem Call.writes {c : Call} {jobs : Jobs} {j : Job} (h : (c.run jobs).2 = some j) :
    Writes c (jobs.get c.id) j
      ∧ ∀ k, (c.run jobs).1.get k = if k = c.id then some j else jobs.get k := by
  rcases hu : c.op.update c.now with _ | u
  · obtain ⟨type, payload, ho⟩ : ∃ type payload, c.op = .createJob type payload := by
      cases ho : c.op <;> simp [ho, JobOp.update] at hu
      exact ⟨_, _, rfl⟩
    rcases c.run_createJob ho jobs with ⟨jobs', hi, hr⟩ | hr <;> rw [hr] at h ⊢
    · obtain rfl : newJob c.now c.id type payload = j := by simpa using h
      have hn : jobs.get c.id = none := (Table.insert_eq_some.1 hi).1
      rw [hn]
      exact ⟨.create ho, fun k => Table.get_insert hi k⟩
    · simp at h
  · rw [Call.run_update hu] at h ⊢
    obtain ⟨i, hi, hc, rfl⟩ := (u.run_snd_eq_some jobs c.id).1 h
    rw [hi]
    refine ⟨.update hu hc, fun k => ?_⟩
    rw [u.get_run, hi]
    simp [hc]

/-! ## Histories -/

@[simp] theorem claims_nil : claims [] = 0 := rfl

section Counting

variable (h : List Call) (c : Call)

@[simp] theorem claims_append : claims (h ++ [c])
    = claims h + if c.op = .claimJob then 1 else 0 := by
  simp [claims, List.countP_append, List.countP_singleton]

@[simp] theorem replays_append : replays (h ++ [c])
    = replays h + if c.op = .claimReplay then 1 else 0 := by
  simp [replays, List.countP_append, List.countP_singleton]

@[simp] theorem deadLetterings_append : deadLetterings (h ++ [c])
    = deadLetterings h ++ c.deadLettering.toList := by
  rcases hd : c.deadLettering with _ | d <;> simp [deadLetterings, hd]

@[simp] theorem cycle_append : cycle (h ++ [c])
    = if c.op = .claimReplay then [] else cycle h ++ [c] := by
  simp [cycle]

end Counting

theorem matches_newJob {c : Call} {type : String} {payload : Payload}
    (h : c.op = .createJob type payload) : Matches [c] (newJob c.now c.id type payload) := by
  constructor <;> simp [newJob, claims, cycle, replays, deadLetterings, Call.deadLettering, h]

theorem Matches.step {h : List Call} {j : Job} (hm : Matches h j) {c : Call} {u : JobUpdate}
    (hu : c.op.update c.now = some u) (hc : u.cond j = true) : Matches (h ++ [c]) (u.set j) := by
  have hcr : (h ++ [c]).head? = h.head? := by
    have := hm.created
    cases h
    · simp at this
    · rfl
  obtain ⟨h1, h2, h3, h4, h5, h6, h7, h8, h9, h10, h11, h12, h13⟩ := hm
  rcases c with ⟨k, now, op⟩
  cases op with
  | createJob => simp [JobOp.update] at hu
  | claimJob =>
    obtain rfl : claimJobUpdate now = u := by simpa [JobOp.update] using hu
    have hd : j.status ≠ .deadLettered := by
      intro h
      simp [claimJobUpdate, Job.claimable, h] at hc
    simp only [hd, if_false] at h4
    constructor <;> simp [claimJobUpdate, Call.deadLettering, *]
    omega
  | markCompleted =>
    obtain rfl : markCompletedUpdate now = u := by simpa [JobOp.update] using hu
    have hp : j.status = .processing := by simpa [markCompletedUpdate] using hc
    rw [hp] at h4 h6
    constructor <;> simp_all [markCompletedUpdate, Call.deadLettering]
  | markRetrying m =>
    obtain rfl : markRetryingUpdate now m = u := by simpa [JobOp.update] using hu
    have hp : j.status = .processing := by simpa [markRetryingUpdate] using hc
    rw [hp] at h4 h6
    constructor <;> simp_all [markRetryingUpdate, Call.deadLettering]
  | markDeadLettered m =>
    obtain rfl : markDeadLetteredUpdate now m = u := by simpa [JobOp.update] using hu
    have hp : j.status = .processing := by simpa [markDeadLetteredUpdate] using hc
    rw [hp] at h4 h6
    constructor <;> simp_all [markDeadLetteredUpdate, Call.deadLettering]
  | claimReplay =>
    obtain rfl : claimReplayUpdate now = u := by simpa [JobOp.update] using hu
    have hp : j.status = .deadLettered := by simpa [claimReplayUpdate] using hc
    have h0 : j.attemptCount ≠ 0 := fun h => by rw [hp] at h6; exact absurd (h6.2 h) (by simp)
    constructor <;> simp_all [claimReplayUpdate, Call.deadLettering]
    omega

/-! ## Runs -/

def callsOn (k : Uuid) (h : List Call) : List Call := h.filter (·.id = k)

/-- Every row matches the calls on its job, and a job without a row has had none. -/
def Recorded (h : List Call) (jobs : Jobs) : Prop :=
  ∀ k, match jobs.get k with
    | none => callsOn k h = []
    | some j => Matches (callsOn k h) j

theorem recorded_empty : Recorded [] Table.empty := fun k => by simp [callsOn]

theorem Recorded.step {h : List Call} {jobs : Jobs} (hr : Recorded h jobs) (c : Call) :
    Recorded (h ++ if c.succeeds jobs then [c] else []) (c.run jobs).1 := by
  rcases hs : (c.run jobs).2 with _ | j
  · rw [Call.run_of_none hs]
    simpa [Call.succeeds, hs] using hr
  obtain ⟨hw, hg⟩ := Call.writes hs
  intro k
  rw [hg k]
  have hk := hr k
  have happ : callsOn k (h ++ if c.succeeds jobs then [c] else [])
      = callsOn k h ++ if k = c.id then [c] else [] := by
    simp only [Call.succeeds, hs, Option.isSome_some, if_true, callsOn, List.filter_append]
    split_ifs with hkc
    · simp [hkc]
    · simp [Ne.symm hkc]
  rw [happ]
  split_ifs with hkc
  · subst hkc
    generalize jobs.get c.id = i at hw hk
    cases hw with
    | create ho =>
      simp only at hk
      rw [hk]
      exact matches_newJob ho
    | update hu hc => exact Matches.step hk hu hc
  · simpa using hk

theorem recorded_of_exec {cs : List Call} {jobs : Jobs}
    (h : exec callStep Table.empty cs = some jobs) : Recorded (history cs) jobs := by
  refine exec_trace_inv (I := Recorded) (fun l s c t hl ht => ?_) recorded_empty h
  obtain rfl : (c.run s).1 = t := by simpa [callStep] using ht
  exact hl.step c

/-- In every run of calls, each row holds exactly what the successful calls on its job say, and a
rejected call leaves the table as it was. -/
theorem row_matches_history {cs : List Call} {jobs : Jobs}
    (h : exec callStep Table.empty cs = some jobs) :
    (∀ j ∈ jobs, Matches (callsOn j.id (history cs)) j)
      ∧ ∀ c : Call, c.succeeds jobs = false → (c.run jobs).1 = jobs := by
  refine ⟨fun j hj => ?_, fun c hc => Call.run_of_none ?_⟩
  · have := recorded_of_exec h j.id
    rwa [Table.get_of_mem hj] at this
  · simpa [Call.succeeds] using hc

/-- The calls of a job that is dead-lettered, replayed and dead-lettered again. -/
def twiceDeadLettered : List Call :=
  [⟨0, 0, .createJob "email" []⟩, ⟨0, 1, .claimJob⟩, ⟨0, 2, .markDeadLettered "no route"⟩,
    ⟨0, 3, .claimJob⟩, ⟨0, 4, .claimReplay⟩, ⟨0, 5, .claimJob⟩, ⟨0, 6, .markRetrying "busy"⟩,
    ⟨0, 7, .claimJob⟩, ⟨0, 8, .markDeadLettered "gone"⟩]

def twiceDeadLetteredRow : Job where
  id := 0
  type := "email"
  payload := []
  status := .deadLettered
  attemptCount := 2
  lastError := some "gone"
  createdAt := 0
  updatedAt := 8
  totalAttemptCount := 3
  replayCount := 1
  lastDeadLetteredAt := some 8
  lastDeadLetterReason := some "gone"

theorem row_matches_history_twice : ∃ jobs,
    exec callStep Table.empty twiceDeadLettered = some jobs
      ∧ jobs.get 0 = some twiceDeadLetteredRow
      ∧ Matches (callsOn 0 (history twiceDeadLettered)) twiceDeadLetteredRow
      ∧ (Call.run jobs ⟨0, 9, .markCompleted⟩).1 = jobs := by
  have h : exec callStep Table.empty twiceDeadLettered
      = some (twiceDeadLettered.foldl (fun jobs c => (c.run jobs).1) Table.empty) := rfl
  have hg : Table.get (twiceDeadLettered.foldl (fun jobs c => (c.run jobs).1) Table.empty) 0
      = some twiceDeadLetteredRow := by decide
  obtain ⟨hm, hr⟩ := row_matches_history h
  exact ⟨_, h, hg, hm twiceDeadLetteredRow (Table.mem_of_get hg), hr _ (by decide)⟩

end DeadLetter
