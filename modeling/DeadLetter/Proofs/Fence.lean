import DeadLetter.Proofs.World

/-!
# Outcome writes and claims

Nothing but the status guards an outcome write, and a stale claim may be taken over. While a
worker is on time, though, the row still carries the time of its claim (`Fencing`): no other claim
can take it, and the one worker that may write it is the one whose claim is the latest.
-/

namespace DeadLetter

open Transition

namespace World

variable {l : List Entry} {s t : World} {w v : ℕ} {k : Uuid}

theorem latestClaim_append_of_ne {m : List Entry}
    (h : ∀ e ∈ m, e.wrote = true → e.call.id ≠ k) : latestClaim (l ++ m) k = latestClaim l k := by
  unfold latestClaim
  rw [filter_append_of_neg]
  intro e he
  cases hw : e.wrote
  · simp
  · simp [h e he hw]

theorem claimOf_append_of_ne {m : List Entry} (h : ∀ e ∈ m, e.worker ≠ some w) :
    claimOf (l ++ m) w = claimOf l w := by
  unfold claimOf
  rw [filter_append_of_neg]
  intro e he
  simp [h e he]

theorem latestClaim_append (e : Entry) : latestClaim (l ++ [e]) k
    = if e.call.id = k ∧ e.wrote = true ∧ (e.call.op = .claimJob ∨ e.call.op = .claimReplay)
      then some e else latestClaim l k := by
  rw [latestClaim, getLast?_filter_append]
  simp [latestClaim, and_assoc]

theorem claimOf_append (e : Entry) : claimOf (l ++ [e]) w
    = if e.worker = some w ∧ e.call.op = .claimJob then some e else claimOf l w := by
  rw [claimOf, getLast?_filter_append]
  simp [claimOf]

theorem worker_of_claimOf {e : Entry} (h : claimOf l w = some e) : e.worker = some w := by
  have := List.mem_of_getLast? h
  rw [List.mem_filter, Bool.and_eq_true, decide_eq_true_eq] at this
  exact this.2.1

/-- A worker that is active on job `k` and on time holds the latest claim of the job, and the row is
as that claim left it. -/
structure Fencing (k : Uuid) (l : List Entry) (s : World) : Prop where
  job : ∀ w job, (s.workers w).active = some job →
    (s.workers w).handler.map (·.msg) = some ⟨job.id⟩
  claim : ∀ w job, (s.workers w).active = some job → ∃ e, claimOf l w = some e
  latest : ∀ w job, (s.workers w).active = some job → job.id = k → s.OnTime w →
    latestClaim l k = claimOf l w ∧ ∃ row, s.db.jobs.get k = some row
      ∧ row.status = .processing ∧ row.updatedAt = job.updatedAt

theorem onTime_of_le {job : Job} (ha : (s.workers w).active = some job)
    (h : s.now ≤ job.updatedAt + seconds staleProcessingThresholdSeconds) : s.OnTime w := by
  intro i hi
  rw [ha] at hi
  exact Option.some.inj hi ▸ h

theorem op_of_processing {c : Call} {i j : Job} (h : Writes c (some i) j)
    (hi : i.status = .processing) :
    c.op.isApi = false ∧ (c.op = .claimJob → i.claimable c.now = true) := by
  rcases c with ⟨k, now, op⟩
  cases h with
  | update hu hc =>
    cases op <;> simp only [JobOp.update, Option.some.injEq, reduceCtorEq] at hu <;> subst hu
    · exact ⟨rfl, fun _ => hc⟩
    · exact ⟨rfl, by simp⟩
    · exact ⟨rfl, by simp⟩
    · exact ⟨rfl, by simp⟩
    · simp [claimReplayUpdate, hi] at hc

theorem not_claimable {i : Job} {now : ℤ} (hi : i.status = .processing)
    (h : now ≤ i.updatedAt + seconds staleProcessingThresholdSeconds) :
    i.claimable now = false := by
  simp only [Job.claimable, hi, reduceCtorEq, decide_false, decide_true, Bool.true_and,
    Bool.false_or, decide_eq_false_iff_not]
  omega

/-- No other call changes the job of a worker that is on time. -/
theorem Fencing.unwritten {a : WorldAction} (hI : Fencing k l s) (hP : Prompt k s a t)
    (h : s.step a = some t) {job : Job} (ha : (s.workers w).active = some job) (hk : job.id = k)
    (ho : s.OnTime w) {e : Entry} (he : e ∈ s.shown a t) (hw : e.worker ≠ some w)
    (hwr : e.wrote = true) : e.call.id ≠ k := by
  intro hid
  obtain ⟨hl, row, hrow, hst, hup⟩ := hI.latest w job ha hk ho
  obtain ⟨j, hj⟩ : ∃ j, (e.call.run s.db.jobs).2 = some j := by
    rcases jobs_of_step h with ⟨hn, -⟩ | ⟨e', he', -, hw'⟩
    · simp [hn] at he
    · rw [he', List.mem_singleton] at he
      subst he
      rw [hw'] at hwr
      exact Option.isSome_iff_exists.1 hwr
  have hwrites := (Call.writes hj).1
  rw [hid, hrow] at hwrites
  obtain ⟨happ, hcl⟩ := op_of_processing hwrites hst
  rcases shown_cases h he with ⟨_, -, -, ha'⟩ | ⟨v, a', rfl, hv, hc, -⟩
  · rw [happ] at ha'
    exact absurd ha' (by simp)
  · rcases Worker.call_cases hc with ⟨msg, reply, -, -, -, hce⟩
      | ⟨msg, job', outcome, reply, hh, rfl, -, hce⟩
    · have := hcl (by rw [hce])
      rw [hce, not_claimable hst (hup ▸ ho job ha)] at this
      exact absurd this (by simp)
    · have hav := active_record hh
      have hmsg : msg.jobId = job'.id := by
        have := hI.job v job' hav
        rw [hh] at this
        exact congrArg JobCreatedMessage.jobId (Option.some.inj this)
      have hjob : job'.id = k := by rw [← hmsg, ← hid, hce]
      obtain ⟨hl', -⟩ := hI.latest v job' hav hjob (onTime_of_le hav (hP.2 v rfl job' hav hjob))
      obtain ⟨e₁, he₁⟩ := hI.claim w job ha
      have hwv : some v = some w := by
        rw [← worker_of_claimOf (l := l) (e := e₁) (w := w) he₁]
        exact (worker_of_claimOf (by rw [← hl', hl, he₁])).symm
      exact hw (hv.trans hwv)

theorem Fencing.step {a : WorldAction} (hI : Fencing k l s) (hP : Prompt k s a t)
    (h : s.step a = some t) : Fencing k (l ++ s.shown a t) t := by
  refine ⟨fun w job ha => ?_, fun w job ha => ?_, fun w job ha hk ho => ?_⟩
  all_goals rcases active_of_step h ha with ⟨hs, hm, hn⟩ | ⟨rfl, msg, hh, ht, hj⟩
  · exact hm.trans (hI.job w job hs)
  · obtain ⟨hid, -⟩ := claimed_step h hh hj
    rw [ht, hid]
    rfl
  · rw [claimOf_append_of_ne hn]
    exact hI.claim w job hs
  · obtain ⟨-, -, -, hsh⟩ := claimed_step h hh hj
    rw [hsh, claimOf_append]
    exact ⟨_, if_pos ⟨rfl, rfl⟩⟩
  · have hos : s.OnTime w := onTime_of_le hs (hP.1.trans (ho job ha))
    have hne : ∀ e ∈ s.shown a t, e.wrote = true → e.call.id ≠ k := fun e he hwr =>
      hI.unwritten hP h hs hk hos he (hn e he) hwr
    rw [latestClaim_append_of_ne hne, claimOf_append_of_ne hn, get_of_step h hne]
    exact hI.latest w job hs hk hos
  · obtain ⟨hid, hrow, hst, hsh⟩ := claimed_step h hh hj
    rw [hsh, latestClaim_append, claimOf_append]
    rw [if_pos ⟨hid.symm.trans hk, rfl, .inl rfl⟩, if_pos ⟨rfl, rfl⟩]
    exact ⟨rfl, job, hk ▸ hrow, hst, rfl⟩

theorem fencing_init : Fencing k [] init :=
  ⟨fun _ _ h => by simp [init, Worker.active] at h, fun _ _ h => by simp [init, Worker.active] at h,
    fun _ _ h => by simp [init, Worker.active] at h⟩

/-! ## Mutual exclusion -/

/-- No two workers are between a claim and the end of their outcome write for the same job. -/
def Exclusive (s : World) : Prop := ∀ w v i j, (s.workers w).active = some i →
  (s.workers v).active = some j → i.id = j.id → w = v

theorem AllOnTime.prompt {a : WorldAction} (h : AllOnTime s a t) : Prompt k s a t :=
  ⟨h.1, fun w _ job ha _ => h.2 w job ha⟩

theorem Exclusive.step {a : WorldAction} (hX : s.Exclusive) (hI : ∀ k, Fencing k l s)
    (hT : AllOnTime s a t) (h : s.step a = some t) : t.Exclusive := by
  -- a worker on time has its job to itself, so that no claim of it returns a row
  have hclaim : ∀ {w v i j msg}, (s.workers w).active = some i → a = .work v (.claimJob .ok) →
      (s.workers v).handler = some ⟨msg, .claimJob⟩ →
      (claimJob s.now s.db.jobs msg.jobId).2 = some j → i.id = j.id → w = v := by
    rintro w v i j msg hw rfl hh hj hij
    by_contra hne
    obtain ⟨hid, -, -, hsh⟩ := claimed_step h hh hj
    refine (hI i.id).unwritten hT.prompt h hw rfl (hT.2 w) (hsh ▸ List.mem_singleton_self _) ?_ rfl
      (hid.symm.trans hij.symm)
    exact fun hvw => hne (Option.some.inj hvw).symm
  intro w v i j hw hv hij
  rcases active_of_step h hw with ⟨hsw, -⟩ | ⟨haw, msg, hhw, -, hjw⟩ <;>
    rcases active_of_step h hv with ⟨hsv, -⟩ | ⟨hav, msg', hhv, -, hjv⟩
  · exact hX w v i j hsw hsv hij
  · exact hclaim hsw hav hhv hjv hij
  · exact (hclaim hsv haw hhw hjw hij.symm).symm
  · rw [haw] at hav
    exact (WorldAction.work.inj hav).1

/-- While every worker is on time, no two are between a claim and the end of their outcome write
for the same job. -/
theorem exclusive_of_onTime {as : List WorldAction} (h : exec step init as = some s)
    (hT : Steps step AllOnTime init as) : s.Exclusive := by
  have hinit : (∀ k, Fencing k [] init) ∧ init.Exclusive :=
    ⟨fun _ => fencing_init, fun w v i j hw => by simp [init, Worker.active] at hw⟩
  have hstep : ∀ l s a t, (∀ k, Fencing k l s) ∧ s.Exclusive → AllOnTime s a t →
      step s a = some t → (∀ k, Fencing k (l ++ shown s a t) t) ∧ t.Exclusive :=
    fun l s a t hI hT h => ⟨fun k => (hI.1 k).step hT.prompt h, hI.2.step hI.1 hT h⟩
  exact (exec_trace_inv_of_steps hstep hinit hT h).2

/-- Only the workers that a run moves need to be looked at. -/
theorem allOnTime_of_below {n : ℕ} {as : List WorldAction}
    (hn : ∀ a ∈ as, ∀ w ∈ mover a, w < n)
    (h : Steps step (fun s _ t => s.now ≤ t.now ∧ ∀ w < n, s.OnTime w) init as) :
    Steps step AllOnTime init as := by
  refine steps_iff.2 fun bs a cs has t u ht hu => ?_
  obtain ⟨hnow, hlt⟩ := steps_iff.1 h bs a cs has t u ht hu
  refine ⟨hnow, fun w => ?_⟩
  by_cases hw : w < n
  · exact hlt w hw
  · have hidle : t.workers w = init.workers w :=
      workers_of_exec ht fun b hb hm => hw (hn b (by simp [has, hb]) w hm)
    intro job ha
    rw [hidle] at ha
    simp [init, Worker.active] at ha

/-- A job whose worker dies, which another takes over when its claim is stale. -/
def takenOver : List WorldAction :=
  [.commit ⟨1, 0, .createJob "email" []⟩ 7, .dispatch 0 (.claim {} .ok),
    .dispatch 0 (.publish .ok), .deliver 0 ⟨1⟩, .work 0 (.claimJob .ok), .work 0 .processJob,
    .pass 50000 (seconds 50), .crash 0, .pass 11000 (seconds 61), .deliver 1 ⟨1⟩,
    .work 1 (.claimJob .ok), .work 1 .processJob, .pass 60000 (seconds 121)]

theorem exclusive_of_onTime_takenOver : ∃ s, exec step init takenOver = some s
    ∧ ((s.workers 1).active.map (·.attemptCount)) = some 2 ∧ s.Exclusive :=
  ⟨_, rfl, by decide, @exclusive_of_onTime _ takenOver rfl
    (allOnTime_of_below (n := 2) (by decide) (by decide))⟩

/-! ## Outcome writes -/

/-- An outcome write changes the row where that is in `PROCESSING`, and else leaves it and fails;
and while the outcome writes on its job are on time, the claim of one that changes it is the
latest. -/
theorem outcome_write_fenced {as : List WorldAction} {reply : Reply} {c : Call}
    (h : exec step init as = some s) (ht : s.step (.work w (.record reply)) = some t)
    (hc : (s.workers w).call s.now (.record reply) = some c) :
    (c.succeeds s.db.jobs = true ↔ ∃ j, s.db.jobs.get c.id = some j ∧ j.status = .processing)
      ∧ (c.succeeds s.db.jobs = false → t.db.jobs = s.db.jobs)
      ∧ (Steps step (Prompt c.id) init (as ++ [.work w (.record reply)]) →
        c.succeeds s.db.jobs = true → ∃ e, claimOf (trace step shown init as) w = some e
          ∧ latestClaim (trace step shown init as) c.id = some e) := by
  obtain ⟨msg, job, outcome, hh, rfl⟩ : ∃ msg job outcome,
      (s.workers w).handler = some ⟨msg, .record job outcome⟩
        ∧ c = ⟨msg.jobId, s.now, outcome.op⟩ := by
    rcases Worker.call_cases hc with ⟨_, _, _, ha, -⟩ | ⟨msg, job, outcome, _, hh, -, -, rfl⟩
    · exact absurd ha (by simp)
    · exact ⟨msg, job, outcome, hh, rfl⟩
  refine ⟨?_, fun hs => ?_, fun hP hs => ?_⟩
  · obtain ⟨u, hu, hcond⟩ := outcome.update s.now
    rw [Call.succeeds_iff hu]
    simp only [hcond]
  · cases step_cases ht
    simp only [handled, hc, afterCall]
    exact Call.run_of_none (by simpa [Call.succeeds] using hs)
  · have hstep : ∀ l s a t, Fencing msg.jobId l s → Prompt msg.jobId s a t → step s a = some t →
        Fencing msg.jobId (l ++ shown s a t) t := fun l s a t hI hP h => hI.step hP h
    have hF := exec_trace_inv_of_steps hstep fencing_init hP.left h
    have ha := active_record hh
    have hid : job.id = msg.jobId := by
      have := hF.job w job ha
      rw [hh] at this
      exact congrArg JobCreatedMessage.jobId (Option.some.inj this).symm
    have ho := onTime_of_le ha ((steps_iff.1 hP as _ [] rfl s t h ht).2 w rfl job ha hid)
    obtain ⟨e, he⟩ := hF.claim w job ha
    exact ⟨e, he, (hF.latest w job ha hid ho).1.trans he⟩

theorem outcome_write_fenced_takenOver : ∃ s t c e, exec step init takenOver = some s
    ∧ s.step (.work 1 (.record .ok)) = some t
    ∧ (s.workers 1).call s.now (.record .ok) = some c ∧ c.succeeds s.db.jobs = true
    ∧ claimOf (trace step shown init takenOver) 1 = some e
    ∧ latestClaim (trace step shown init takenOver) c.id = some e := by
  obtain ⟨t, ht⟩ : ∃ t, exec step init (takenOver ++ [.work 1 (.record .ok)]) = some t :=
    Option.isSome_iff_exists.1 (by decide)
  obtain ⟨s, hs, ht⟩ := exec_append.1 ht
  rw [exec_singleton] at ht
  have hend : (exec step init takenOver).map (fun s => ((s.workers 1).call s.now (.record .ok)).map
      fun c => (c.id, c.succeeds s.db.jobs)) = some (some (1, true)) := by decide
  rw [hs, Option.map_some, Option.some.injEq, Option.map_eq_some_iff] at hend
  obtain ⟨c, hc, hcw⟩ := hend
  obtain ⟨hid, hw⟩ := Prod.mk.inj hcw
  obtain ⟨-, -, h⟩ := outcome_write_fenced hs ht hc
  have hP : Steps step (Prompt 1) init (takenOver ++ [.work 1 (.record .ok)]) := by decide
  obtain ⟨e, he, hl⟩ := h (hid ▸ hP) hw
  exact ⟨s, t, c, e, hs, ht, hc, hw, he, hl⟩

/-- A worker so slow that its stale claim is taken over by the delivery of a second message. -/
def lateWriter : List WorldAction :=
  [.commit ⟨1, 0, .createJob "email" []⟩ 7, .dispatch 0 (.claim {} .ok),
    .dispatch 0 (.publish (.threw (.value "") true)), .dispatch 0 (.markFailed .ok),
    .dispatch 0 (.claim {} .ok), .dispatch 0 (.publish .ok), .deliver 0 ⟨1⟩,
    .work 0 (.claimJob .ok), .work 0 .processJob, .pass 61000 (seconds 61), .deliver 1 ⟨1⟩,
    .work 1 (.claimJob .ok)]

theorem lateWriter_unfenced : ∃ s t c, exec step init lateWriter = some s
    ∧ s.step (.work 0 (.record .ok)) = some t
    ∧ (s.workers 0).call s.now (.record .ok) = some c ∧ c.succeeds s.db.jobs = true
    ∧ (t.db.jobs.get 1).map (·.status) = some .completed
    ∧ latestClaim (trace step shown init lateWriter) c.id
      ≠ claimOf (trace step shown init lateWriter) 0 :=
  ⟨_, _, _, rfl, rfl, rfl, by decide, by decide, by decide⟩

end World

end DeadLetter
