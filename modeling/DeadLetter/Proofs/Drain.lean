import DeadLetter.Proofs.Payload
import DeadLetter.Proofs.Totals
import DeadLetter.Proofs.Wakeup

/-!
# The system can finish its work

Wherever a run has come to, the dispatcher and the workers can go on without a failure until
nothing is left to do: the runs of the dispatcher end, then every event is published, the handlers
end, and each message that is handled then either is discarded or takes its job nearer to its end
(`rank`). A job that waits has what wakes it in every state, so in the last one none waits.
-/

namespace DeadLetter

open Transition

/-- Nothing fails in the step. -/
def OutboxAction.smooth : OutboxAction → Prop
  | .claim scan reply => (∀ k, scan.locked k = false) ∧ reply = .ok
  | .publish reply => reply = .ok
  | .markPublished reply _ | .markFailed reply => reply = .ok
  | .crash => False

def HandlerAction.smooth : HandlerAction → Prop
  | .claimJob reply | .record reply => reply = .ok
  | .publish ok _ => ok = true
  | _ => True

/-- The status a job ends with, by its payload. -/
def Job.fate (j : Job) : JobStatus :=
  match processJob j with
  | .ok () => .completed
  | .error _ => .deadLettered

namespace World

variable {s t u : World} {w r : ℕ}

/-- The dispatcher and the workers go on, nothing fails, and the clock does not go back. -/
def Smooth (s : World) (a : WorldAction) (_ : World) : Prop :=
  match a with
  | .pass _ now => s.now ≤ now
  | .dispatch _ a => a.smooth
  | .work _ a => a.smooth
  | .expire | .deliver _ _ => True
  | .commit _ _ | .crash _ => False

/-- Nothing is left to do; the dead-letter queue is left as it is. -/
structure Drained (s : World) : Prop where
  events : ∀ e ∈ s.db.outbox.events, e.publishedAt ≠ none
  runs : ∀ r, s.db.outbox.runs r = none
  main : s.main = []
  retry : s.retry = []
  workers : ∀ w, (s.workers w).handler = none

/-- The steps taken here: no claim of theirs lets go of a job either. -/
def Calm (s : World) (a : WorldAction) (t : World) : Prop := Smooth s a t ∧ Attended s a t

/-! ## Time passes -/

theorem exists_gt (l : List ℤ) : ∃ b, ∀ x ∈ l, x < b := by
  induction l with
  | nil => exact ⟨0, by simp⟩
  | cons x l ih =>
    obtain ⟨b, hb⟩ := ih
    refine ⟨max (x + 1) b, fun y hy => ?_⟩
    rcases List.mem_cons.1 hy with rfl | hy
    · omega
    · have := hb y hy
      omega

/-- The claims on the rows of the two tables are long past. -/
structure Late (s : World) : Prop where
  jobs : ∀ j ∈ s.db.jobs, j.updatedAt < s.now - seconds staleProcessingThresholdSeconds
  events : ∀ e ∈ s.db.outbox.events, ∀ u ∈ e.claimedAt,
    u < s.now - seconds staleClaimThresholdSeconds

theorem can_wait (s : World) (elapsedMs : ℕ) : ∃ now, s.now ≤ now
    ∧ Late { s with now, time := s.time + elapsedMs }
    ∧ Can step Calm s { s with now, time := s.time + elapsedMs } := by
  obtain ⟨b, hb⟩ := exists_gt (s.db.jobs.rows.map (·.updatedAt)
    ++ s.db.outbox.events.rows.filterMap (·.claimedAt))
  refine ⟨max s.now (b + seconds 60), le_max_left .., ⟨fun j hj => ?_, fun e he u hu => ?_⟩, ?_⟩
  · have := hb _ (List.mem_append_left _ (List.mem_map_of_mem hj))
    simp only [staleProcessingThresholdSeconds]
    omega
  · have := hb u (List.mem_append_right _ (List.mem_filterMap.2 ⟨e, he, hu⟩))
    simp only [staleClaimThresholdSeconds, seconds]
    omega
  · exact can_step (a := .pass elapsedMs _) rfl ⟨le_max_left .., trivial⟩

/-! ## The dispatcher -/

/-- The unpublished events. -/
def pending (s : World) : ℕ := s.db.outbox.events.rows.countP (·.publishedAt = none)

theorem pending_of_updated {events events' : OutboxEvents} (h : OnlyUpdated events events') :
    events'.rows.countP (·.publishedAt = none) ≤ events.rows.countP (·.publishedAt = none) := by
  obtain ⟨p, f, hf, rfl, hk⟩ := h
  simp only [Table.update, List.countP_map]
  refine List.countP_mono_left fun e _ he => ?_
  simp only [Function.comp_apply, decide_eq_true_eq] at he ⊢
  split_ifs at he
  · exact (hk e).2 he
  · exact he

theorem can_dispatch {a : OutboxAction} {outbox : Outbox}
    (h : s.db.outbox.step s.now r a = some outbox) (ha : a.smooth) :
    Can step Calm s { s with db := { s.db with outbox }, main := s.main ++ s.enqueued r a } := by
  refine can_step (a := .dispatch r a) ?_ ⟨ha, trivial⟩
  simp only [step, Db.step, h, Option.map_some]

/-- The steps that a run has to go. -/
def runSize : Option DispatchRun → ℕ
  | none => 0
  | some run => 3 * run.rest.length + if run.phase = .publish then 2 else 1

theorem runSize_next (run : DispatchRun) : runSize run.next ≤ 3 * run.rest.length := by
  unfold DispatchRun.next
  split
  · exact Nat.zero_le _
  · rename_i e es he
    simp only [runSize, he, List.length_cons, if_true]
    omega

/-- A run goes on. -/
theorem run_goes_on (now : ℤ) {o : Outbox} {run : DispatchRun} (h : o.runs r = some run) :
    ∃ a o', OutboxAction.smooth a ∧ o.step now r a = some o'
      ∧ runSize (o'.runs r) < runSize (some run) ∧ ∀ q, q ≠ r → o'.runs q = o.runs q := by
  obtain ⟨phase, event, rest, attempted, published, failed⟩ := run
  rcases phase with _ | _ | m
  · refine ⟨.publish .ok, _, rfl, by simp only [Outbox.step, h, if_true]; rfl, ?_,
      fun q hq => Function.update_of_ne hq _ _⟩
    simp [Outbox.setRun, runSize]
  · refine ⟨.markPublished .ok (.value ""), _, rfl, by simp only [Outbox.step, h, if_true]; rfl,
      ?_, fun q hq => Function.update_of_ne hq _ _⟩
    simp only [Outbox.setRun, Function.update_self]
    exact (runSize_next _).trans_lt (by simp [runSize])
  · refine ⟨.markFailed .ok, _, rfl, by simp only [Outbox.step, h]; rfl, ?_,
      fun q hq => Function.update_of_ne hq _ _⟩
    simp only [Outbox.setRun, Function.update_self]
    exact (runSize_next _).trans_lt (by simp [runSize])

/-- What is reached leaves idle what was. -/
def RunsKept (s t : World) : Prop := ∀ q, s.db.outbox.runs q = none → t.db.outbox.runs q = none

theorem can_end_run (n : ℕ) (r : ℕ) (s : World) (hs : s.pending ≤ n) :
    ∃ t, Can step Calm s t ∧ t.pending ≤ n ∧ t.db.outbox.runs r = none ∧ RunsKept s t := by
  have h : ∃ t, Can step Calm s t ∧ (t.pending ≤ n ∧ RunsKept s t) ∧ t.db.outbox.runs r = none := by
    refine can_of_rank (fun t => runSize (t.db.outbox.runs r)) (fun t ht hd => ?_)
      ⟨hs, fun _ => id⟩
    obtain ⟨run, hr⟩ := Option.ne_none_iff_exists'.1 hd
    obtain ⟨a, o, ha, ho, hlt, hne⟩ := run_goes_on t.now hr
    refine ⟨_, can_dispatch ho ha, ⟨?_, fun q hq => ?_⟩, by simpa only [hr] using hlt⟩
    · exact (pending_of_updated (Outbox.onlyUpdated_of_step ho)).trans ht.1
    · have hqr : q ≠ r := fun h => hd (h ▸ ht.2 q hq)
      exact (hne q hqr).trans (ht.2 q hq)
  obtain ⟨t, hst, ⟨hn, hk⟩, hr⟩ := h
  exact ⟨t, hst, hn, hr, hk⟩

/-- With no event locked and every claim long past, a claim takes a pending event. -/
theorem exists_claimed (now : ℤ) {events : OutboxEvents} {e : OutboxEvent} (he : e ∈ events)
    (hp : e.publishedAt = none)
    (hl : ∀ u ∈ e.claimedAt, u < now - seconds staleClaimThresholdSeconds) :
    ∃ e' es, (claimPendingOutboxEvents now events batchSize {}).2 = e' :: es := by
  have hc : e.claimable now = true := by
    rcases hu : e.claimedAt with _ | u
    · simp [OutboxEvent.claimable, hp, hu]
    · simpa [OutboxEvent.claimable, hp, hu] using hl u hu
  have hids : pendingIds now events batchSize {} ≠ [] := by
    intro h
    have hmem : e ∈ events.rows.filter fun e => e.claimable now && !({} : Scan).locked e.id :=
      List.mem_filter.2 ⟨he, by simp [hc]⟩
    have := List.length_pos_of_mem hmem
    rw [pendingIds, List.map_eq_nil_iff, List.take_eq_nil_iff, ← List.length_eq_zero_iff,
      List.length_insertionSort, List.length_insertionSort] at h
    rcases h with h | h
    · simp [batchSize] at h
    · omega
  obtain ⟨k, hk⟩ := List.exists_mem_of_ne_nil _ hids
  obtain ⟨e₀, he₀, rfl, -⟩ := claimable_of_mem_pendingIds hk
  exact List.exists_cons_of_ne_nil (List.ne_nil_of_mem (mem_claimed.2 ⟨e₀, he₀, hk, rfl⟩))

/-- Marking an event that is pending leaves one less. -/
theorem pending_marked {now : ℤ} {events : OutboxEvents} {e : OutboxEvent} {id : Uuid}
    (he : events.get id = some e) (hp : e.publishedAt = none) :
    (markOutboxPublished now events id).rows.countP (·.publishedAt = none)
      < events.rows.countP (·.publishedAt = none) := by
  have hid := Table.key_of_get he
  have h := Table.countP_replace (r := { e with publishedAt := some now })
    (fun e => e.publishedAt = none) (show events.get e.id = some e from hid ▸ he)
  rw [markOutboxPublished, ← Table.replace_eq_updateKey _ he rfl]
  simp only [hp, decide_true, if_true, reduceCtorEq, decide_false, Bool.false_eq_true, if_false]
    at h
  omega

/-- An event that is pending is published. -/
theorem can_publish_one (hr : ∀ r, s.db.outbox.runs r = none) (hp : s.pending ≠ 0) :
    ∃ t, Can step Calm s t ∧ t.pending < s.pending ∧ ∀ q, q ≠ 0 → t.db.outbox.runs q = none := by
  obtain ⟨e, he, hpe⟩ := List.countP_pos_iff.1 (Nat.pos_of_ne_zero hp)
  obtain ⟨now, -, hl, h₁⟩ := can_wait s 0
  obtain ⟨e', es, hc⟩ := exists_claimed now he (by simpa using hpe) (hl.events e he)
  obtain ⟨e₀, he₀, hk, rfl⟩ := mem_claimed.1 (hc ▸ List.mem_cons_self)
  obtain ⟨e₁, he₁, hid, hc₁⟩ := claimable_of_mem_pendingIds hk
  obtain rfl : e₁ = e₀ := by
    have := Table.get_of_mem he₁
    rw [hid, Table.get_of_mem he₀] at this
    exact (Option.some.inj this).symm
  have hpub : e₁.publishedAt = none := by
    rw [OutboxEvent.claimable, Bool.and_eq_true] at hc₁
    simpa using hc₁.1
  let o := s.db.outbox
  let events := (claimPendingOutboxEvents now o.events batchSize {}).1
  let e₂ : OutboxEvent := { e₁ with claimedAt := some now }
  let run : DispatchRun :=
    { phase := .publish, event := e₂, rest := es, attempted := es.length + 1 }
  let run' : DispatchRun := { run with phase := .markPublished }
  let o₁ : Outbox := { events, runs := Function.update o.runs 0 (some run) }
  let o₂ : Outbox := o₁.setRun 0 (some run')
  let o₃ : Outbox := Outbox.setRun { o₂ with events := markOutboxPublished now events e₁.id } 0
    { run' with published := run'.published + 1 }.next
  have ho₁ : o.step now 0 (.claim {} .ok) = some o₁ := by
    simp only [Outbox.step, show o.runs 0 = none from hr 0, o, hc]
    rfl
  have ho₂ : o₁.step now 0 (.publish .ok) = some o₂ := by
    simp only [Outbox.step, o₁, Function.update_self]
    rfl
  have ho₃ : o₂.step now 0 (.markPublished .ok (.value "")) = some o₃ := by
    simp only [Outbox.step, o₂, Outbox.setRun, Function.update_self]
    rfl
  refine ⟨_, ((h₁.trans (can_dispatch ho₁ ⟨fun _ => rfl, rfl⟩)).trans
    (can_dispatch ho₂ rfl)).trans (can_dispatch ho₃ rfl), ?_, fun q hq => ?_⟩
  · have hget : events.get e₁.id = some e₂ := by
      simp only [events, get_claimPending, o, Table.get_of_mem he₀, Option.map_some, if_pos hk]
      rfl
    exact (pending_marked hget hpub).trans_le
      (pending_of_updated (Outbox.onlyUpdated_of_step ho₁))
  · simp only [o₃, o₂, o₁, Outbox.setRun, Function.update_of_ne hq]
    exact hr q

theorem can_publish_all {n : ℕ} (hn : ∀ r, n ≤ r → s.db.outbox.runs r = none) :
    ∃ t, Can step Calm s t ∧ t.pending = 0 ∧ ∀ r, t.db.outbox.runs r = none := by
  obtain ⟨s₁, hs₁, -, hlt, hk⟩ := can_each (P := fun r (t : World) => t.db.outbox.runs r = none)
    (I := fun t => t.pending ≤ s.pending) (fun r t ht => can_end_run _ r t ht) n le_rfl
  have hidle : ∀ r, s₁.db.outbox.runs r = none := fun r => by
    by_cases h : r < n
    · exact hlt r h
    · exact hk r (hn r (not_lt.1 h))
  have hrank : ∀ u : World, (∀ r, u.db.outbox.runs r = none) → ¬ u.pending = 0 →
      ∃ v, Can step Calm u v ∧ (∀ r, v.db.outbox.runs r = none) ∧ v.pending < u.pending := by
    intro u hu hp
    obtain ⟨v, huv, hlt, hv⟩ := can_publish_one hu hp
    obtain ⟨v', hv', hle, h0, hk⟩ := can_end_run v.pending 0 v le_rfl
    refine ⟨v', huv.trans hv', fun r => ?_, hle.trans_lt hlt⟩
    by_cases h : r = 0
    · exact h ▸ h0
    · exact hk r (hv r h)
  obtain ⟨t, hst, hr, hp⟩ := can_of_rank pending hrank hidle
  exact ⟨t, hs₁.trans hst, hp, hr⟩

/-! ## The handlers -/

/-- A claim of a job in `PROCESSING` takes it over. -/
theorem Late.attended (hl : Late s) (a : WorldAction) (t : World) : Attended s a t := by
  unfold Attended
  split
  · intro msg j _ hj hst hc
    have := hl.jobs j (Table.mem_of_get hj)
    simp [Job.claimable, hst, this] at hc
  · trivial

theorem can_work {a : HandlerAction} {hd : Handled}
    (h : (s.workers w).step s.now s.time s.db.jobs a = some hd) (ha : a.smooth)
    (hl : a = .claimJob .ok → Late s) : Can step Calm s
      (World.handled { s with db := afterCall s.db ((s.workers w).call s.now a) } w hd) := by
  refine can_step (a := .work w a) ?_ ⟨ha, ?_⟩
  · simp only [step, h, Option.map_some]
  · by_cases hc : a = .claimJob .ok
    · exact (hl hc).attended _ _
    · unfold Attended
      split
      · rename_i he
        simp only [WorldAction.work.injEq] at he
        exact absurd he.2 hc
      · trivial

def phaseSize : HandlerPhase → ℕ
  | .claimJob => 6
  | .processJob _ => 5
  | .record _ _ => 4
  | .publishRetry _ | .publishDeadLetter | .backoff _ => 3
  | .getJobById => 2
  | .ack => 1

/-- When a handler is awake. -/
def wakesAt : HandlerPhase → ℕ
  | .backoff wakeAt => wakeAt
  | _ => 0

/-- The steps that a handler has to go. -/
def handlerSize (h : Option Handler) : ℕ := h.elim 0 fun h => phaseSize h.phase

/-- A handler goes on, once it is awake. -/
theorem handler_goes_on (now : ℤ) {time : ℕ} (jobs : Jobs) {wk : Worker}
    {msg : JobCreatedMessage} {phase : HandlerPhase} (hh : wk.handler = some ⟨msg, phase⟩)
    (ht : wakesAt phase ≤ time) : ∃ a hd, HandlerAction.smooth a ∧ wk.step now time jobs a = some hd
      ∧ handlerSize hd.worker.handler < phaseSize phase := by
  have hlt : ∀ p, phaseSize p < phaseSize phase →
      handlerSize (some ⟨msg, p⟩) < phaseSize phase := fun _ => id
  cases phase with
  | claimJob =>
    rcases hj : (claimJob now jobs msg.jobId).2 with _ | job
    · exact ⟨.claimJob .ok, _, rfl, by simp only [Worker.step, hh, hj]; rfl,
        hlt .getJobById (by simp [phaseSize])⟩
    · exact ⟨.claimJob .ok, _, rfl, by simp only [Worker.step, hh, hj]; rfl,
        hlt (.processJob job) (by simp [phaseSize])⟩
  | getJobById =>
    exact ⟨.getJobById, _, trivial, by simp only [Worker.step, hh]; rfl,
      hlt .ack (by simp [phaseSize])⟩
  | processJob job =>
    exact ⟨.processJob, _, trivial, by simp only [Worker.step, hh]; rfl,
      hlt (.record job (outcomeOf job (DeadLetter.processJob job))) (by simp [phaseSize])⟩
  | record job outcome =>
    rcases hj : (Call.run jobs ⟨msg.jobId, now, outcome.op⟩).2 with _ | row
    · exact ⟨.record .ok, _, rfl, by simp only [Worker.step, hh, hj]; rfl,
        hlt (.backoff (time + computeDbErrorBackoffMs (wk.dbErrorCount + 1)))
          (by simp [phaseSize])⟩
    · refine ⟨.record .ok, _, rfl, by simp only [Worker.step, hh, hj]; rfl,
        hlt (Worker.afterRecord outcome) ?_⟩
      cases outcome <;> simp [Worker.afterRecord, phaseSize]
  | publishRetry delayMs =>
    exact ⟨.publish true true, _, rfl, by simp only [Worker.step, hh]; rfl,
      hlt .ack (by simp [phaseSize])⟩
  | publishDeadLetter =>
    exact ⟨.publish true true, _, rfl, by simp only [Worker.step, hh]; rfl,
      hlt .ack (by simp [phaseSize])⟩
  | backoff wakeAt =>
    have ht : wakeAt ≤ time := ht
    exact ⟨.requeue, _, trivial, by simp only [Worker.step, hh, ht, if_true]; rfl,
      by simp [handlerSize, phaseSize]⟩
  | ack =>
    exact ⟨.ack, _, trivial, by simp only [Worker.step, hh]; rfl, by simp [handlerSize, phaseSize]⟩

/-- What is reached leaves idle what was. -/
def WorkersKept (s t : World) : Prop :=
  ∀ v, (s.workers v).handler = none → (t.workers v).handler = none

theorem can_end_handler (o : Outbox) (w : ℕ) (s : World) (hs : s.db.outbox = o) :
    ∃ t, Can step Calm s t ∧ t.db.outbox = o ∧ (t.workers w).handler = none ∧ WorkersKept s t := by
  have h : ∃ t, Can step Calm s t ∧ (t.db.outbox = o ∧ WorkersKept s t)
      ∧ (t.workers w).handler = none := by
    refine can_of_rank (fun t => handlerSize (t.workers w).handler) (fun t ht hd => ?_)
      ⟨hs, fun _ => id⟩
    obtain ⟨⟨msg, phase⟩, hh⟩ := Option.ne_none_iff_exists'.1 hd
    obtain ⟨now, -, hl, hw⟩ := can_wait t (wakesAt phase)
    obtain ⟨a, hd, ha, hst, hlt⟩ := handler_goes_on now t.db.jobs hh
      (Nat.le_add_left (wakesAt phase) t.time)
    refine ⟨_, hw.trans (can_work hst ha fun _ => hl), ⟨?_, fun v hv => ?_⟩, ?_⟩
    · exact (afterCall_outbox _ _).trans ht.1
    · have hvw : v ≠ w := by
        rintro rfl
        exact absurd (ht.2 v hv) (by simp [hh])
      simp only [handled, Function.update_of_ne hvw]
      exact ht.2 v hv
    · simp only [handled, Function.update_self, hh]
      exact hlt
  obtain ⟨t, hst, ⟨ho, hk⟩, hw⟩ := h
  exact ⟨t, hst, ho, hw, hk⟩

/-! ## One message -/

/-- The attempts that a job may yet come to, and one more for its end. -/
def spare (j : Job) : ℕ :=
  if j.status = .completed ∨ j.status = .deadLettered then 0
  else j.maxAttempts - j.attemptCount + 1

def rank (s : World) : ℕ :=
  3 * (s.db.jobs.rows.map spare).sum + 2 * s.retry.length + s.main.length

/-- The state in which only worker 0 has done something. -/
def solo (s : World) (wk : Worker) (jobs : Jobs) (retry : List (JobCreatedMessage × ℕ))
    (dlq : List JobCreatedMessage) : World :=
  { s with
    db := { s.db with jobs }
    retry := s.retry ++ retry
    dlq := s.dlq ++ dlq
    workers := Function.update s.workers 0 wk }

theorem can_solo {wk wk' : Worker} {jobs jobs' : Jobs} {a : HandlerAction}
    {retry r : List (JobCreatedMessage × ℕ)} {dlq d : List JobCreatedMessage}
    (h : wk.step s.now s.time jobs a = some { worker := wk', retry := r, dlq := d })
    (hj : (afterCall { s.db with jobs } (wk.call s.now a)).jobs = jobs') (ha : a.smooth)
    (hl : a = .claimJob .ok → Late (s.solo wk jobs retry dlq)) :
    Can step Calm (s.solo wk jobs retry dlq) (s.solo wk' jobs' (retry ++ r) (dlq ++ d)) := by
  have hc := can_work (s := s.solo wk jobs retry dlq) (w := 0) (a := a)
    (by simpa only [solo, Function.update_self] using h) ha hl
  convert hc using 1
  simp only [solo, handled, List.append_nil, List.append_assoc, Function.update_self,
    Function.update_idem, World.mk.injEq, and_true, true_and]
  subst hj
  cases wk.call s.now a <;> rfl

theorem lt_of_retrying {job : Job} {r : Except ProcessingError Unit} {m : String} {delayMs : ℕ}
    (h : outcomeOf job r = .retrying m delayMs) : job.attemptCount < job.maxAttempts := by
  rcases r with e | ⟨⟩
  · simp only [outcomeOf] at h
    split_ifs at h with _ hx
    exact not_le.1 hx
  · simp [outcomeOf] at h

/-- What a job is spared by an attempt: its end, or one attempt that may yet come. -/
theorem spare_recorded {now : ℤ} {jobs : Jobs} {k : Uuid} {job : Job}
    (hj : (claimJob now jobs k).2 = some job) :
    ∃ row, (Call.run (claimJob now jobs k).1 ⟨k, now, (outcomeOf job (processJob job)).op⟩).2
        = some row
      ∧ ((Call.run (claimJob now jobs k).1
          ⟨k, now, (outcomeOf job (processJob job)).op⟩).1.rows.map spare).sum
        < (jobs.rows.map spare).sum := by
  set outcome := outcomeOf job (processJob job) with ho
  obtain ⟨i, hi, hc, rfl⟩ := ((claimJobUpdate now).run_snd_eq_some jobs k).1 hj
  set job := (claimJobUpdate now).set i
  have hget : (claimJob now jobs k).1.get k = some job :=
    ((Call.writes (c := ⟨k, now, .claimJob⟩) hj).2 k).trans (if_pos rfl)
  obtain ⟨v, hv, hp⟩ := outcome.update now
  obtain ⟨row, hrow⟩ :
      ∃ row, (Call.run (claimJob now jobs k).1 ⟨k, now, outcome.op⟩).2 = some row :=
    Option.isSome_iff_exists.1 ((Call.succeeds_iff (c := ⟨k, now, outcome.op⟩) hv _).2
      ⟨job, hget, (hp job).2 rfl⟩)
  refine ⟨row, hrow, ?_⟩
  have h₁ : ((claimJob now jobs k).1.rows.map spare).sum + spare i
      = (jobs.rows.map spare).sum + spare job := Call.sum_run (c := ⟨k, now, .claimJob⟩) spare hi hj
  have h₂ := Call.sum_run (c := ⟨k, now, outcome.op⟩) spare hget hrow
  have hw := (Call.writes hrow).1
  rw [show (claimJob now jobs k).1.get (Call.id ⟨k, now, outcome.op⟩) = some job from hget] at hw
  have hi0 : spare i = i.maxAttempts - i.attemptCount + 1 := by
    refine if_neg ?_
    rintro (h | h) <;> simp [claimJobUpdate, Job.claimable, h] at hc
  have hlt : spare row < i.maxAttempts - i.attemptCount + 1 := by
    rcases hout : outcome with _ | ⟨m, b⟩ | ⟨m, delayMs⟩ <;> rw [hout] at hw
    · have hst : row.status = .completed := hw.status
      simp [spare, hst]
    · have hst : row.status = .deadLettered := hw.status
      simp [spare, hst]
    · have hst : row.status = .retrying := hw.status
      have hmax : row.maxAttempts = i.maxAttempts := hw.maxAttempts
      have hatt : row.attemptCount = i.attemptCount + 1 := hw.attemptCount
      have hlt : i.attemptCount + 1 < i.maxAttempts := lt_of_retrying (ho.symm.trans hout)
      simp only [spare, hst, reduceCtorEq, or_self, if_false, hmax, hatt]
      omega
  omega

/-- A message is handled: it is discarded, or its job comes nearer to its end. -/
theorem can_handle {msg : JobCreatedMessage} (hw : ∀ w, (s.workers w).handler = none)
    (hm : msg ∈ s.main) (hl : Late s) : ∃ t, Can step Calm s t ∧ t.db.outbox = s.db.outbox
      ∧ (∀ w, (t.workers w).handler = none) ∧ t.rank < s.rank := by
  let b : World := { s with main := s.main.erase msg }
  have hb : b.main.length + 1 = s.main.length := by
    have := List.length_erase_of_mem hm
    have := List.length_pos_of_mem hm
    simp only [b]
    omega
  have hidle : ∀ {wk jobs retry dlq}, wk.handler = none →
      ∀ w, ((b.solo wk jobs retry dlq).workers w).handler = none := by
    intro wk jobs retry dlq hwk w
    by_cases h : w = 0
    · simpa only [solo, h, Function.update_self] using hwk
    · simpa only [solo, Function.update_of_ne h] using hw w
  have hdeliver : Can step Calm s
      (b.solo ((s.workers 0).go msg .claimJob) s.db.jobs [] []) := by
    refine can_step (a := .deliver 0 msg) ?_ ⟨trivial, trivial⟩
    simp only [step, hm, hw 0, and_self, if_true, b, solo, List.append_nil]
  have hlate : Late (b.solo ((s.workers 0).go msg .claimJob) s.db.jobs [] []) :=
    ⟨hl.jobs, hl.events⟩
  let wk : Worker := { dbErrorCount := 0, handler := some ⟨msg, .ack⟩ }
  have hack : ∀ {jobs r d}, Can step Calm (b.solo wk jobs r d)
      (b.solo { wk with handler := none } jobs (r ++ []) (d ++ [])) :=
    can_solo (a := .ack) rfl rfl trivial (by simp)
  rcases hj : (claimJob s.now s.db.jobs msg.jobId).2 with _ | job
  · have hjobs : (Call.run s.db.jobs ⟨msg.jobId, s.now, .claimJob⟩).1 = s.db.jobs :=
      Call.run_of_none hj
    have h₁ : Can step Calm (b.solo ((s.workers 0).go msg .claimJob) s.db.jobs [] [])
        (b.solo (wk.go msg .getJobById) s.db.jobs [] []) :=
      can_solo (a := .claimJob .ok) (by simp only [Worker.step, Worker.go, b, hj]; rfl) hjobs rfl
        fun _ => hlate
    have h₂ : Can step Calm (b.solo (wk.go msg .getJobById) s.db.jobs [] [])
        (b.solo wk s.db.jobs [] []) := can_solo (a := .getJobById) rfl rfl trivial (by simp)
    refine ⟨_, ((hdeliver.trans h₁).trans h₂).trans hack, rfl, hidle rfl, ?_⟩
    simp only [rank, solo, b, List.append_nil] at hb ⊢
    omega
  · let jobs₁ := (claimJob s.now s.db.jobs msg.jobId).1
    let outcome := outcomeOf job (processJob job)
    obtain ⟨row, hrow, hlt⟩ := spare_recorded hj
    let jobs₂ := (Call.run jobs₁ ⟨msg.jobId, s.now, outcome.op⟩).1
    have h₁ : Can step Calm (b.solo ((s.workers 0).go msg .claimJob) s.db.jobs [] [])
        (b.solo (wk.go msg (.processJob job)) jobs₁ [] []) :=
      can_solo (a := .claimJob .ok) (by simp only [Worker.step, Worker.go, b, hj]; rfl) rfl rfl
        fun _ => hlate
    have h₂ : Can step Calm (b.solo (wk.go msg (.processJob job)) jobs₁ [] [])
        (b.solo (wk.go msg (.record job outcome)) jobs₁ [] []) :=
      can_solo (a := .processJob) rfl rfl trivial (by simp)
    have h₃ : Can step Calm (b.solo (wk.go msg (.record job outcome)) jobs₁ [] [])
        (b.solo (wk.go msg (Worker.afterRecord outcome)) jobs₂ [] []) :=
      can_solo (a := .record .ok) (by simp only [Worker.step, Worker.go, b, jobs₁, outcome, hrow])
        rfl rfl (by simp)
    have hend : ∃ r d, r.length ≤ 1 ∧ Can step Calm
        (b.solo (wk.go msg (Worker.afterRecord outcome)) jobs₂ [] []) (b.solo wk jobs₂ r d) := by
      rcases outcome with _ | ⟨m, nr⟩ | ⟨m, delayMs⟩
      · exact ⟨[], [], by simp, .refl _⟩
      · exact ⟨[], [msg], by simp, can_solo (a := .publish true true) rfl rfl rfl (by simp)⟩
      · exact ⟨[(msg, s.time + delayMs)], [], by simp,
          can_solo (a := .publish true true) rfl rfl rfl (by simp)⟩
    obtain ⟨r, d, hr, h₄⟩ := hend
    refine ⟨_, ((((hdeliver.trans h₁).trans h₂).trans h₃).trans h₄).trans hack, rfl, hidle rfl, ?_⟩
    simp only [rank, solo, b, List.append_nil, List.length_append] at hb ⊢
    simp only [jobs₂, jobs₁, outcome]
    omega

theorem can_empty_queues (hw : ∀ w, (s.workers w).handler = none) :
    ∃ t, Can step Calm s t ∧ t.db.outbox = s.db.outbox ∧ (∀ w, (t.workers w).handler = none)
      ∧ t.main = [] ∧ t.retry = [] := by
  have hrank : ∀ u : World, u.db.outbox = s.db.outbox ∧ (∀ w, (u.workers w).handler = none) →
      ¬ (u.main = [] ∧ u.retry = []) → ∃ v, Can step Calm u v
        ∧ (v.db.outbox = s.db.outbox ∧ ∀ w, (v.workers w).handler = none) ∧ v.rank < u.rank := by
    rintro u ⟨ho, hu⟩ hd
    rcases hm : u.main with _ | ⟨msg, main⟩
    · rcases hr : u.retry with _ | ⟨⟨msg, expiresAt⟩, retry⟩
      · exact absurd ⟨hm, hr⟩ hd
      obtain ⟨now, -, -, hwait⟩ := can_wait u expiresAt
      have hexp : Can step Calm { u with now, time := u.time + expiresAt }
          { u with now, time := u.time + expiresAt, retry, main := u.main ++ [msg] } :=
        can_step (a := .expire) (by simp only [step, hr, Nat.le_add_left, if_true])
          ⟨trivial, trivial⟩
      refine ⟨_, hwait.trans hexp, ⟨ho, hu⟩, ?_⟩
      simp only [rank, hr, hm, List.length_cons, List.length_nil, List.nil_append]
      omega
    · obtain ⟨now, -, hl, hwait⟩ := can_wait u 0
      obtain ⟨v, huv, hov, hv, hlt⟩ := can_handle (s := { u with now, time := u.time + 0 }) hu
        (show msg ∈ u.main from hm ▸ List.mem_cons_self) hl
      exact ⟨v, hwait.trans huv, ⟨hov.trans ho, hv⟩, hlt⟩
  obtain ⟨t, hst, ⟨ho, ht⟩, hd⟩ := can_of_rank rank hrank ⟨rfl, hw⟩
  exact ⟨t, hst, ho, ht, hd⟩

/-! ## All of it -/

/-- The workers and the runs that have come to something are few. -/
def Few (s : World) : Prop :=
  ∃ n, ∀ i, n ≤ i → (s.workers i).handler = none ∧ s.db.outbox.runs i = none

theorem Few.step (hF : Few s) {a : WorldAction} (h : s.step a = some t) : Few t := by
  obtain ⟨n, hn⟩ := hF
  cases step_cases h with
  | passed => exact ⟨n, hn⟩
  | committed _ hc =>
    obtain ⟨-, -, -, hr, -⟩ := Db.commit_eq_some hc
    exact ⟨n, fun i hi => ⟨(hn i hi).1, by rw [hr]; exact (hn i hi).2⟩⟩
  | @dispatched r _ _ ho =>
    refine ⟨max n (r + 1), fun i hi => ⟨(hn i ((le_max_left _ _).trans hi)).1, ?_⟩⟩
    rw [Outbox.runs_of_ne ho (by omega)]
    exact (hn i ((le_max_left _ _).trans hi)).2
  | expired => exact ⟨n, hn⟩
  | @delivered w =>
    refine ⟨max n (w + 1), fun i hi => ⟨?_, (hn i ((le_max_left _ _).trans hi)).2⟩⟩
    rw [workers_of_step h (by simp only [mover, ne_eq, Option.some.injEq]; omega)]
    exact (hn i ((le_max_left _ _).trans hi)).1
  | @worked w a =>
    refine ⟨max n (w + 1), fun i hi => ⟨?_, ?_⟩⟩
    · rw [workers_of_step h (by simp only [mover, ne_eq, Option.some.injEq]; omega)]
      exact (hn i ((le_max_left _ _).trans hi)).1
    · simp only [handled, afterCall_outbox]
      exact (hn i ((le_max_left _ _).trans hi)).2
  | @crashed w =>
    refine ⟨max n (w + 1), fun i hi => ⟨?_, (hn i ((le_max_left _ _).trans hi)).2⟩⟩
    rw [workers_of_step h (by simp only [mover, ne_eq, Option.some.injEq]; omega)]
    exact (hn i ((le_max_left _ _).trans hi)).1

theorem can_drain_few (hF : Few s) : ∃ t, Can step Calm s t ∧ t.Drained := by
  obtain ⟨n, hn⟩ := hF
  obtain ⟨s₁, h₁, hp, hr⟩ := can_publish_all fun r hr => (hn r hr).2
  obtain ⟨m, hm⟩ : Few s₁ := Can.inv (fun _ _ _ hF h => Few.step hF h) ⟨n, hn⟩ h₁
  obtain ⟨s₂, h₂, ho₂, hlt, hk⟩ := can_each (P := fun w (t : World) => (t.workers w).handler = none)
    (fun w t ht => can_end_handler s₁.db.outbox w t ht) m rfl
  have hidle : ∀ w, (s₂.workers w).handler = none := fun w => by
    by_cases h : w < m
    · exact hlt w h
    · exact hk w (hm w (not_lt.1 h)).1
  obtain ⟨t, h₃, ho₃, hw, hmain, hretry⟩ := can_empty_queues hidle
  have ho : t.db.outbox = s₁.db.outbox := ho₃.trans ho₂
  refine ⟨t, (h₁.trans h₂).trans h₃, ⟨fun e he hpub => ?_, fun r => ?_, hmain, hretry, hw⟩⟩
  · rw [ho] at he
    have := List.countP_eq_zero.1 hp e he
    simp [hpub] at this
  · rw [ho, hr]

/-- Where nothing is left to do, nothing holds a job. -/
theorem Drained.not_isHeld (hD : s.Drained) (k : Uuid) : ¬ s.IsHeld k := by
  rintro (⟨e, he, -, hp, -⟩ | hm | ⟨u, hr⟩ | ⟨w, h, -, hh, -⟩)
  · exact hD.events e he hp
  · simp [hD.main] at hm
  · simp [hD.retry] at hr
  · simp [hD.workers w] at hh

theorem Decided.fate (hD : s.Decided) {j : Job} (hj : j ∈ s.db.jobs)
    (hst : j.status = .completed ∨ j.status = .deadLettered) : j.status = j.fate := by
  obtain ⟨-, hd⟩ := hD.rows j hj
  unfold Job.fate
  rcases hp : processJob j with e | ⟨⟩ <;> rw [hp] at hd <;> simp only at hd ⊢
  · exact hst.resolve_left hd.1
  · exact hst.resolve_right hd.2.1

/-- A job that waits is held, and so is one in `PROCESSING` where no claim has let go of it. -/
theorem awake_of_exec {as : List WorldAction} (h : exec step init as = some s) :
    Awake (fun _ st => st = .queued ∨ st = .retrying) s := by
  refine exec_inv (fun s a t hI h => hI.step (by simp) h ?_) (awake_init _) h
  intro w k j _ _ _ hc hst
  rcases hst with hst | hst <;> simp [Job.claimable, hst] at hc

theorem awake_of_attended {as : List WorldAction} {k : Uuid} (h : exec step init as = some s)
    (hA : Steps step (AttendedFor k) init as) :
    Awake (fun k' st => k' = k ∧ st = .processing) s := by
  refine exec_inv_of_steps (fun s a t hI hR h => hI.step (by simp) h ?_) (awake_init _) hA h
  rintro w _ j rfl hh hj hc ⟨rfl, hst⟩
  exact hR j hh hj hst hc

theorem Attended.for {a : WorldAction} (h : Attended s a t) (k : Uuid) : AttendedFor k s a t := by
  unfold Attended AttendedFor at *
  split at h
  · exact fun j hh hj hst hc => h ⟨k⟩ j hh hj hst hc
  · trivial

/-! ## The dead letters -/

/-- Nothing is taken from the dead-letter queue. -/
theorem dlq_of_step {a : WorldAction} (h : s.step a = some t) : s.dlq <+: t.dlq := by
  cases step_cases h with
  | worked => exact List.prefix_append _ _
  | crashed => exact List.prefix_append _ _
  | _ => exact List.prefix_rfl

/-- The jobs that have been dead-lettered since `s` have their messages in the dead-letter queue,
or a worker is to publish them. -/
def Shelved (s t : World) : Prop :=
  ∀ k j, t.db.jobs.get k = some j → j.status = .deadLettered →
    (s.db.jobs.get k).map (·.status) = some .deadLettered ∨ ⟨k⟩ ∈ t.dlq
      ∨ ∃ w, (t.workers w).handler = some ⟨⟨k⟩, .publishDeadLetter⟩

/-- A worker that is to publish a dead letter does, where nothing fails. -/
theorem publishing_of_step {a : WorldAction} {k : Uuid} (h : s.step a = some t)
    (hS : Smooth s a t) (hw : (s.workers w).handler = some ⟨⟨k⟩, .publishDeadLetter⟩) :
    ⟨k⟩ ∈ t.dlq ∨ (t.workers w).handler = some ⟨⟨k⟩, .publishDeadLetter⟩ := by
  by_cases hm : mover a = some w
  swap
  · exact .inr (by rw [workers_of_step h hm, hw])
  cases step_cases h with
  | @worked v a hd hs =>
    obtain rfl := Option.some.inj hm
    cases Worker.step_cases hw hs with
    | publishedDeadLetter => exact .inl (List.mem_append_right _ (List.mem_singleton_self _))
    | deadLetterThrew => exact absurd hS (by simp [Smooth, HandlerAction.smooth])
  | delivered _ hn =>
    obtain rfl := Option.some.inj hm
    rw [hn] at hw
    cases hw
  | crashed => exact hS.elim
  | _ => cases hm

/-- A worker that has dead-lettered a job is to publish it, where nothing fails. -/
theorem publishing_of_marked {a : WorldAction} {e : Entry} (h : t.step a = some u)
    (hS : Smooth t a u) (he : e ∈ t.shown a u) (hw : e.wrote = true)
    (hop : e.call.op.status = .deadLettered) :
    ∃ w, (u.workers w).handler = some ⟨⟨e.call.id⟩, .publishDeadLetter⟩ := by
  rcases shown_cases h he with ⟨_, -, -, hapi⟩ | ⟨w, a', rfl, -, hcall, -⟩
  · cases hop' : e.call.op <;> rw [hop'] at hop hapi <;> cases hop
    cases hapi
  rcases Worker.call_cases hcall with ⟨_, _, -, rfl, -, hce⟩
    | ⟨msg, job, outcome, reply, hh, rfl, -, hce⟩
  · rw [hce] at hop
    cases hop
  · obtain rfl : reply = .ok := hS
    have hsucc : e.call.succeeds t.db.jobs = true := (wrote_of_shown h he).symm.trans hw
    refine ⟨w, ?_⟩
    rw [hce] at hop hsucc ⊢
    cases step_cases h with
    | worked hs =>
      cases Worker.step_cases hh hs with
      | recorded =>
        cases outcome <;> cases hop
        simp [handled, Worker.go, Worker.afterRecord]
      | recordThrew hn =>
        rw [Call.succeeds, hn rfl] at hsucc
        cases hsucc

theorem Shelved.step {a : WorldAction} (hI : Shelved s t) (h : t.step a = some u)
    (hS : Smooth t a u) : Shelved s u := by
  intro k j hj hst
  rcases row_cases h k with ⟨hrow, -⟩ | ⟨e, i, he, hw, rfl, hi, hwr⟩
  · rcases hI k j (hrow ▸ hj) hst with hs | hd | ⟨w, hw⟩
    · exact .inl hs
    · exact .inr (.inl ((dlq_of_step h).subset hd))
    · rcases publishing_of_step h hS hw with hd | hw
      · exact .inr (.inl hd)
      · exact .inr (.inr ⟨w, hw⟩)
  · obtain rfl : i = j := Option.some.inj (hi.symm.trans hj)
    have hop : e.call.op.status = .deadLettered := hwr.status.symm.trans hst
    exact .inr (.inr (publishing_of_marked h hS (he ▸ List.mem_singleton_self e) hw hop))

/-- From every state that the system reaches, with no failure any more, it comes to one where
nothing is left to do: every event is published, the main and the retry queue are empty, and every
job has ended as its payload decides, but for those left in `PROCESSING` by a claim of theirs that
let go of them. The dead letters are all in their queue: those that were there, and those of the
jobs that were dead-lettered since. -/
theorem can_drain {as : List WorldAction} (h : exec step init as = some s) :
    ∃ t, Can step Smooth s t ∧ t.Drained ∧ s.dlq <+: t.dlq ∧ ∀ j ∈ t.db.jobs,
      (j.status = j.fate
          ∨ j.status = .processing ∧ ¬ Steps step (AttendedFor j.id) init as)
        ∧ (j.status = .deadLettered →
          (s.db.jobs.get j.id).map (·.status) = some .deadLettered ∨ ⟨j.id⟩ ∈ t.dlq) := by
  have hF : Few s := exec_inv (fun _ _ _ hF h => Few.step hF h) ⟨0, fun _ _ => ⟨rfl, rfl⟩⟩ h
  obtain ⟨t, hcan, hD⟩ := can_drain_few hF
  obtain ⟨bs, hbs, hcalm⟩ := id hcan
  have hdlq : s.dlq <+: t.dlq :=
    exec_inv (I := fun u : World => s.dlq <+: u.dlq) (fun _ _ _ hp h => hp.trans (dlq_of_step h))
      List.prefix_rfl hbs
  have hshelved : Shelved s t :=
    exec_inv_of_steps (fun _ _ _ hI hR h => hI.step h hR.1)
      (fun k j hj hst => .inl (by rw [hj, Option.map_some, hst])) hcalm hbs
  refine ⟨t, hcan.mono fun _ _ _ h => h.1, hD, hdlq, fun j hj => ⟨?_, fun hst => ?_⟩⟩
  swap
  · rcases hshelved j.id j (Table.get_of_mem hj) hst with hs | hd | ⟨w, hw⟩
    · exact .inl hs
    · exact .inr hd
    · rw [hD.workers w] at hw
      cases hw
  have ht : exec step init (as ++ bs) = some t := exec_append.2 ⟨s, h, hbs⟩
  have hdec : t.Decided :=
    (exec_inv (fun _ _ _ hI h => Foreseen.step hI h) foreseen_init ht).toDecided
  have hwait : ¬ (j.status = .queued ∨ j.status = .retrying) := fun hst =>
    hD.not_isHeld j.id ((awake_of_exec ht).held j.id j (Table.get_of_mem hj) hst)
  have hproc : j.status = .processing → ¬ Steps step (AttendedFor j.id) init as := fun hst hA => by
    have hA := hA.append h (hcalm.mono fun _ _ _ h => h.2.for j.id)
    exact hD.not_isHeld j.id ((awake_of_attended ht hA).held j.id j (Table.get_of_mem hj)
      ⟨rfl, hst⟩)
  rcases hst : j.status with _ | _ | _ | _ | _ | _
  · exact absurd (.inl hst) hwait
  · exact .inr ⟨rfl, hproc hst⟩
  · exact .inl (hst ▸ hdec.fate hj (.inl hst))
  · exact absurd hst (hdec.rows j hj).1
  · exact absurd (.inr hst) hwait
  · exact .inl (hst ▸ hdec.fate hj (.inr hst))

/-- The worker of a job that waits for its retry could not publish it, and backs off. -/
theorem can_drain_unpublishedRetry : ∃ s, exec step init unpublishedRetry = some s
    ∧ (s.db.jobs.get 1).map (·.status) = some .retrying ∧ s.retry = []
    ∧ ∃ t, Can step Smooth s t ∧ t.Drained ∧ s.dlq <+: t.dlq ∧ ∀ j ∈ t.db.jobs,
      (j.status = j.fate
          ∨ j.status = .processing ∧ ¬ Steps step (AttendedFor j.id) init unpublishedRetry)
        ∧ (j.status = .deadLettered →
          (s.db.jobs.get j.id).map (·.status) = some .deadLettered ∨ ⟨j.id⟩ ∈ t.dlq) :=
  ⟨_, rfl, by decide, rfl, @can_drain _ unpublishedRetry rfl⟩

end World

end DeadLetter
