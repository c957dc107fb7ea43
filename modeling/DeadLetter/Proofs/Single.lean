import DeadLetter.Proofs.Messages
import DeadLetter.Proofs.Fence
import DeadLetter.Proofs.Wakeup

/-!
# One message of a job

Where no event is enqueued twice, no retry is enqueued by a publish that throws, no worker dies
having nothing left but to acknowledge, and no job is replayed while a message of it is left, a job
has one message at most: its event, or one in a queue, or one with a worker, whose channel stays
open. So whoever works on a job works on it alone, however long that takes, and what comes of it is
recorded.
-/

namespace DeadLetter

open Transition

/-- On a message for job `k`, and yet to acknowledge it or to hand it back. -/
def Worker.carries (k : Uuid) (wk : Worker) : Bool :=
  wk.handler.any fun h => h.msg.jobId = k && !decide (h.phase = .ack)

namespace World

open Worker

variable {s t : World} {w v : ℕ} {k : Uuid} {l : List Uuid}

/-- The event whose message a step enqueues. -/
def sentEvents (s : World) (a : WorldAction) (_ : World) : List Uuid :=
  match a with
  | .dispatch r (.publish reply) =>
    if reply.enqueued then ((s.db.outbox.runs r).map fun run => run.event.id).toList else []
  | _ => []

/-- The events of job `k` whose message is yet to be enqueued, `l` being the others. -/
def unsent (l : List Uuid) (events : OutboxEvents) (k : Uuid) : ℕ :=
  events.rows.countP fun e => e.jobId = k && !decide (e.id ∈ l)

/-- The messages of job `k`, and its events that are yet to become one. -/
noncomputable def copies (l : List Uuid) (s : World) (k : Uuid) : ℕ :=
  unsent l s.db.outbox.events k + s.main.countP (·.jobId = k)
    + s.retry.countP (·.1.jobId = k) + Census.count (carries k) s.workers

/-- A message of job `k` is in a queue, or with a worker that is yet to acknowledge it. -/
def Carries (s : World) (k : Uuid) : Prop :=
  ⟨k⟩ ∈ s.main ∨ (∃ t, (⟨k⟩, t) ∈ s.retry) ∨ ∃ w, (s.workers w).carries k = true

/-- A step that makes no second message of a job but by an event. -/
def Singly (s : World) (a : WorldAction) (_ : World) : Prop :=
  match a with
  | .commit c _ => c.op = .claimReplay → c.succeeds s.db.jobs = true → ¬ s.Carries c.id
  | .work w (.publish ok enqueued) =>
      (s.workers w).publishing.isSome = true → enqueued = true → ok = true
  | .crash w => ∀ h ∈ (s.workers w).handler, h.phase ≠ .ack
  | _ => True

/-! ## Copies -/

theorem unsent_of_updated {events events' : OutboxEvents} (h : OnlyUpdated events events') :
    unsent l events' k = unsent l events k := by
  obtain ⟨p, f, hf, rfl, hj⟩ := h
  have hmap := Table.map_update (t := events) (p := p) hf (g := fun e => (e.id, e.jobId))
    fun e => Prod.ext (hf e) (hj e).1
  have hcount := congrArg (List.countP fun x : Uuid × Uuid => x.2 = k && !decide (x.1 ∈ l)) hmap
  rw [List.countP_map, List.countP_map] at hcount
  exact hcount

/-- An event whose message is enqueued is one less that is not. -/
theorem unsent_concat {events : OutboxEvents} {e : OutboxEvent} (he : e ∈ events)
    (hl : e.id ∉ l) : unsent (l ++ [e.id]) events k + (if e.jobId = k then 1 else 0)
      = unsent l events k := by
  obtain ⟨l₁, l₂, hrows, h₁, h₂⟩ := Table.rows_eq_of_get (Table.get_of_mem he)
  have hother : ∀ m : List OutboxEvent, (∀ r ∈ m, r.id ≠ e.id) →
      m.countP (fun e' => decide (e'.jobId = k) && !decide (e'.id ∈ l ++ [e.id]))
        = m.countP fun e' => decide (e'.jobId = k) && !decide (e'.id ∈ l) := fun m hm =>
    List.countP_congr fun r hr => by simp [hm r hr]
  unfold unsent
  simp only [hrows, List.countP_append, List.countP_cons, hother l₁ h₁, hother l₂ h₂]
  by_cases hk : e.jobId = k <;> simp [hk, hl]
  omega

theorem unsent_insert {now : ℤ} {events events' : OutboxEvents} {id jobId : Uuid}
    (h : insertOutboxEvent now events id jobId = some events') (hl : id ∉ l) :
    unsent l events' k = unsent l events k + if jobId = k then 1 else 0 := by
  unfold unsent
  rw [(Table.insert_eq_some.1 h).2, List.countP_append, List.countP_singleton]
  by_cases hk : jobId = k <;> simp [newOutboxEvent, hl, hk]

/-- A step of a handler that enqueues no stray retry makes no message. -/
theorem carried_of_handlerStep {now : ℤ} {time : ℕ} {jobs : Jobs} {wk : Worker}
    {msg : JobCreatedMessage} {phase : HandlerPhase} {a : HandlerAction} {hd : Handled}
    (hh : wk.handler = some ⟨msg, phase⟩) (hst : HandlerStep now time jobs wk msg phase a hd)
    (hs : ∀ ok enqueued, a = .publish ok enqueued → wk.publishing.isSome = true →
      enqueued = true → ok = true) :
    hd.main.countP (·.jobId = k) + hd.retry.countP (·.1.jobId = k) + (hd.worker.carries k).toNat
      ≤ (wk.carries k).toNat := by
  unfold carries
  rw [hh]
  by_cases hk : msg.jobId = k
  swap
  · cases hst <;> simp [hk, go, backoffBeforeRequeue]
  cases hst with
  | @retryThrew _ b =>
    have hb : b = false := by
      cases b
      · rfl
      · exact absurd (hs false true rfl (by simp [publishing, hh]) rfl) (by simp)
    simp [hb, hk, backoffBeforeRequeue]
  | @recorded job row outcome => cases outcome <;> simp [hk, go, afterRecord]
  | _ => simp [hk, go, backoffBeforeRequeue]

theorem sentEvents_of_dispatched {r : ℕ} {a : OutboxAction} {outbox : Outbox}
    (ho : s.db.outbox.step s.now r a = some outbox) (hk : s.db.outbox.Known) :
    (∀ u, sentEvents s (.dispatch r a) u = []) ∧ s.enqueued r a = []
      ∨ ∃ e ∈ s.db.outbox.events, (∀ u, sentEvents s (.dispatch r a) u = [e.id])
        ∧ s.enqueued r a = [⟨e.jobId⟩] := by
  have hrun : ∀ {reply run}, a = .publish reply → s.db.outbox.runs r = some run →
      (∀ u, sentEvents s (.dispatch r a) u = []) ∧ s.enqueued r a = []
      ∨ ∃ e ∈ s.db.outbox.events, (∀ u, sentEvents s (.dispatch r a) u = [e.id])
        ∧ s.enqueued r a = [⟨e.jobId⟩] := by
    rintro reply run rfl hr
    cases hb : reply.enqueued
    · exact .inl ⟨fun _ => by simp [sentEvents, hb], by simp [enqueued, hb]⟩
    · obtain ⟨e, he, hj⟩ := hk r run hr run.event (List.mem_cons_self ..)
      refine .inr ⟨e, Table.mem_of_get he, fun _ => ?_, ?_⟩
      · simp [sentEvents, hb, hr, Table.key_of_get he]
      · simp [enqueued, hb, hr, hj]
  cases Outbox.step_cases ho with
  | published hr => exact hrun rfl hr
  | publishThrew hr => exact hrun rfl hr
  | _ => exact .inl ⟨fun _ => rfl, rfl⟩

/-- No step but a commit makes a copy. -/
theorem copies_of_step {a : WorldAction} (h : s.step a = some t) (hS : Singly s a t)
    (hf : s.busy.Finite) (hk : s.db.outbox.Known) (hl : (l ++ sentEvents s a t).Nodup)
    (ha : ∀ c eventId, a ≠ .commit c eventId) :
    t.copies (l ++ sentEvents s a t) k ≤ s.copies l k := by
  have hmove := fun w wk => count_move hf w wk (p := carries k) fun _ => isSome_of_any
  unfold copies
  cases step_cases h with
  | passed => simp [sentEvents]
  | committed => exact absurd rfl (ha _ _)
  | @dispatched r a outbox ho =>
    simp only [unsent_of_updated (Outbox.onlyUpdated_of_step ho), List.countP_append]
    rcases sentEvents_of_dispatched ho hk with ⟨hs, he⟩ | ⟨e, hmem, hs, he⟩
    · simp [hs, he]
    · rw [hs] at hl ⊢
      have hnot : e.id ∉ l := fun hin => (List.nodup_append.1 hl).2.2 _ hin _
        (List.mem_singleton_self _) rfl
      have := unsent_concat (k := k) hmem hnot
      simp only [he, List.countP_singleton, decide_eq_true_eq]
      omega
  | @expired msg expiresAt retry hr ht =>
    simp only [sentEvents, List.append_nil, hr, List.countP_append, List.countP_cons,
      List.countP_nil]
    omega
  | @delivered w msg hmem hw =>
    have hperm := (List.perm_cons_erase hmem).countP_eq (fun m => decide (m.jobId = k))
    have := hmove w ((s.workers w).go msg .claimJob)
    have hgo : ((s.workers w).go msg .claimJob).carries k = decide (msg.jobId = k) := by
      simp [carries, go]
    rw [List.countP_cons] at hperm
    rw [hgo] at this
    simp only [sentEvents, List.append_nil, hperm]
    by_cases hk : msg.jobId = k <;> simp [hk] at this ⊢ <;> omega
  | @worked w a hd hs =>
    obtain ⟨msg, phase, hh, hst⟩ := Worker.handler_of_step hs
    have hle := carried_of_handlerStep (k := k) hh hst (by rintro ok enqueued rfl; exact hS)
    have := hmove w hd.worker
    simp only [sentEvents, List.append_nil, handled, List.countP_append, afterCall_outbox]
    omega
  | @crashed w =>
    have := hmove w {}
    have hwk : (Worker.carries k {}) = false := rfl
    have hle : ((s.workers w).crash.main.countP (·.jobId = k))
        ≤ ((s.workers w).carries k).toNat := by
      unfold carries Worker.crash
      rcases hh : (s.workers w).handler with _ | ⟨msg, phase⟩
      · simp
      · have := hS _ hh
        simp only at this
        by_cases hk : msg.jobId = k <;> simp [hk, this]
    rw [hwk] at this
    simp only [sentEvents, List.append_nil, handled, List.countP_append]
    simp only [Worker.crash, List.countP_nil] at hle ⊢
    simp only [Bool.toNat_false] at this
    omega

/-! ## One copy -/

/-- A job has one copy at most, and none before it is created; it is queued while that is its
event, and its row is as the worker claimed it that works on it. `l` are the events that are
sent. -/
structure Single (l : List Uuid) (s : World) : Prop where
  copies : ∀ k, s.copies l k ≤ 1
  fresh : ∀ k, s.db.jobs.get k = none → s.copies l k = 0
  queued : ∀ e ∈ s.db.outbox.events, e.id ∉ l →
    ∃ j, s.db.jobs.get e.jobId = some j ∧ j.status = .queued
  sent : ∀ id ∈ l, s.db.outbox.events.get id ≠ none
  known : s.db.outbox.Known
  busy : s.busy.Finite
  row : ∀ w job, (s.workers w).active = some job → s.db.jobs.get job.id = some job
    ∧ job.status = .processing ∧ (s.workers w).handler.map (·.msg) = some ⟨job.id⟩

theorem Single.finite_carries (hI : Single l s) (k : Uuid) :
    (Census.among (Worker.carries k) s.workers).Finite :=
  hI.busy.subset (Census.among_subset fun _ => isSome_of_any)

theorem Single.eq_of_carries (hI : Single l s) (hw : (s.workers w).carries k = true)
    (hv : (s.workers v).carries k = true) : w = v := by
  refine Census.eq_of_count_le_one (hI.finite_carries k) ?_ hw hv
  have := hI.copies k
  unfold World.copies at this
  omega

/-- A job that a worker carries has no event to send, and is not to be created. -/
theorem Single.of_carries (hI : Single l s) (hw : (s.workers w).carries k = true) :
    unsent l s.db.outbox.events k = 0 ∧ s.db.jobs.get k ≠ none := by
  have hpos := Census.pos_of_mem (hI.finite_carries k) hw
  have hc := hI.copies k
  unfold World.copies at hc
  refine ⟨by omega, fun hn => ?_⟩
  have h0 := hI.fresh k hn
  unfold World.copies at h0
  omega

theorem carries_of_active {job : Job} (hI : Single l s) (ha : (s.workers w).active = some job) :
    (s.workers w).carries job.id = true := by
  have hm := (hI.row w job ha).2.2
  unfold Worker.active at ha
  unfold Worker.carries
  rcases hh : (s.workers w).handler with _ | ⟨msg, phase⟩ <;> rw [hh] at ha hm
  · simp at hm
  · simp only [Option.map_some, Option.some.injEq] at hm
    subst hm
    cases phase <;> simp_all

/-- A call that writes is the API's, on a job with no row or in `DEAD_LETTERED`, or a worker's on
the job that it carries. -/
theorem writer_of_shown {a : WorldAction} (h : s.step a = some t) {e : Entry}
    (he : e ∈ s.shown a t) (hw : e.wrote = true) :
    (∃ eventId, a = .commit e.call eventId ∧ e.worker = none ∧ (s.db.jobs.get e.call.id = none
      ∨ e.call.op = .claimReplay
        ∧ ∃ j, s.db.jobs.get e.call.id = some j ∧ j.status = .deadLettered))
      ∨ ∃ w, e.worker = some w ∧ (s.workers w).carries e.call.id = true := by
  rcases shown_cases h he with ⟨eventId, rfl, hn, happ⟩ | ⟨w, a', rfl, hv, hc, -⟩
  · refine .inl ⟨eventId, rfl, hn, ?_⟩
    obtain ⟨j, -, hwr⟩ := written_row h he hw
    rcases hg : s.db.jobs.get e.call.id with _ | i <;> rw [hg] at hwr
    · exact .inl rfl
    · refine .inr ?_
      cases hwr with
      | update hu hcond =>
        rcases hop : e.call.op with _ | _ | _ | _ | _ | _ <;> rw [hop] at hu happ <;>
          simp only [JobOp.isApi, Bool.false_eq_true, JobOp.update, reduceCtorEq,
            Option.some.injEq] at happ hu
        subst hu
        exact ⟨rfl, i, rfl, by simpa [claimReplayUpdate] using hcond⟩
  · refine .inr ⟨w, hv, ?_⟩
    unfold Worker.carries
    rcases Worker.call_cases hc with ⟨msg, reply, hh, -, -, hce⟩
      | ⟨msg, job, outcome, reply, hh, -, -, hce⟩ <;> simp [hh, hce]

/-- No other call writes the job that a worker carries. -/
theorem Single.unwritten_of_carries (hI : Single l s) {a : WorldAction} (h : s.step a = some t)
    (hS : Singly s a t) (hk : (s.workers w).carries k = true) {e : Entry}
    (he : e ∈ s.shown a t) (hne : e.worker ≠ some w) (hw : e.wrote = true) : e.call.id ≠ k := by
  rintro rfl
  rcases writer_of_shown h he hw with ⟨eventId, rfl, -, hn | ⟨hop, -⟩⟩ | ⟨v, hv, hc⟩
  · exact (hI.of_carries hk).2 hn
  · refine hS hop ?_ (.inr (.inr ⟨w, hk⟩))
    rw [← wrote_of_shown h he, hw]
  · exact hne (by rw [hv, hI.eq_of_carries hc hk])

/-- No call writes a job whose event is yet to be sent. -/
theorem Single.unwritten_of_unsent (hI : Single l s) {a : WorldAction} (h : s.step a = some t)
    {o : OutboxEvent} (ho : o ∈ s.db.outbox.events) (hl : o.id ∉ l) {e : Entry}
    (he : e ∈ s.shown a t) (hw : e.wrote = true) : e.call.id ≠ o.jobId := by
  intro hid
  obtain ⟨j, hj, hq⟩ := hI.queued o ho hl
  rcases writer_of_shown h he hw with ⟨eventId, -, -, hn | ⟨-, i, hi, hd⟩⟩ | ⟨v, -, hc⟩
  · rw [hid, hj] at hn
    exact absurd hn (by simp)
  · rw [hid, hj, Option.some.injEq] at hi
    rw [← hi, hq] at hd
    exact absurd hd (by simp)
  · have hpos : 0 < unsent l s.db.outbox.events o.jobId :=
      List.countP_pos_iff.2 ⟨o, ho, by simp [hl]⟩
    rw [hid] at hc
    have := (hI.of_carries hc).1
    omega

/-- A row stays, written or not. -/
theorem get_kept {a : WorldAction} (h : s.step a = some t) (hk : s.db.jobs.get k ≠ none) :
    t.db.jobs.get k ≠ none := by
  rcases row_cases h k with ⟨ht, -⟩ | ⟨e, j, -, -, -, hj, -⟩
  · rwa [ht]
  · simp [hj]

/-- A step that is not a commit only updates events. -/
theorem onlyUpdated_of_step {a : WorldAction} (h : s.step a = some t)
    (ha : ∀ c eventId, a ≠ .commit c eventId) :
    OnlyUpdated s.db.outbox.events t.db.outbox.events := by
  cases step_cases h with
  | committed => exact absurd rfl (ha _ _)
  | dispatched ho => exact Outbox.onlyUpdated_of_step ho
  | worked =>
    simp only [handled, afterCall_outbox]
    exact onlyUpdated_refl _
  | _ => exact onlyUpdated_refl _

theorem get_of_updated {events events' : OutboxEvents} (h : OnlyUpdated events events')
    (id : Uuid) : (events'.get id).map (·.jobId) = (events.get id).map (·.jobId) := by
  obtain ⟨p, f, hf, rfl, hj⟩ := h
  rw [Table.get_update]
  rcases events.get id with _ | e
  · rfl
  · simp only [Option.map_some, Option.some.injEq]
    split_ifs
    · exact (hj e).1
    · rfl

/-- A job that the API is to create or to replay has no copy. -/
theorem Single.copies_of_commit (hI : Single l s) {c : Call} {eventId : Uuid}
    (h : s.step (.commit c eventId) = some t) (hS : Singly s (.commit c eventId) t)
    (hw : c.succeeds s.db.jobs = true) : s.copies l c.id = 0 := by
  rcases writer_of_shown h (List.mem_singleton_self _) hw with ⟨-, -, -, hn | ⟨hop, j, hj, hd⟩⟩
    | ⟨v, hv, -⟩
  · exact hI.fresh _ hn
  · have hno := hS hop hw
    simp only [Carries, not_or, not_exists] at hno
    obtain ⟨hm, hr, hc⟩ := hno
    have h1 : unsent l s.db.outbox.events c.id = 0 := by
      refine List.countP_eq_zero.2 fun o ho hp => ?_
      simp only [Bool.and_eq_true, decide_eq_true_eq, Bool.not_eq_true', decide_eq_false_iff_not]
        at hp
      obtain ⟨i, hi, hq⟩ := hI.queued o ho hp.2
      rw [hp.1, hj, Option.some.injEq] at hi
      rw [← hi, hd] at hq
      exact absurd hq (by simp)
    have h2 : s.main.countP (·.jobId = c.id) = 0 := by
      refine List.countP_eq_zero.2 fun msg hmem hp => hm ?_
      rw [← of_decide_eq_true hp]
      exact hmem
    have h3 : s.retry.countP (·.1.jobId = c.id) = 0 := by
      refine List.countP_eq_zero.2 fun x hmem hp => hr x.2 ?_
      rw [← of_decide_eq_true hp]
      exact hmem
    have h4 := Census.count_eq_zero_of (p := Worker.carries c.id) (f := s.workers)
      fun w => Bool.eq_false_iff.2 (hc w)
    unfold World.copies
    omega
  · simp at hv

/-- The row of a worker's job is as the worker claimed it. -/
theorem Single.row_step (hI : Single l s) {a : WorldAction} (h : s.step a = some t)
    (hS : Singly s a t) (w : ℕ) (job : Job) (ha : (t.workers w).active = some job) :
    t.db.jobs.get job.id = some job ∧ job.status = .processing
      ∧ (t.workers w).handler.map (·.msg) = some ⟨job.id⟩ := by
  rcases active_of_step h ha with ⟨hs, hm, hn⟩ | ⟨rfl, msg, hh, ht, hj⟩
  · obtain ⟨hrow, hst, hmsg⟩ := hI.row w job hs
    refine ⟨?_, hst, hm.trans hmsg⟩
    rw [get_of_step h fun e he hw => hI.unwritten_of_carries h hS (carries_of_active hI hs) he
      (hn e he) hw, hrow]
  · obtain ⟨hid, hrow, hst, -⟩ := claimed_step h hh hj
    exact ⟨hrow, hst, by rw [ht, hid]; rfl⟩

theorem Single.commit (hI : Single l s) {c : Call} {eventId : Uuid}
    (h : s.step (.commit c eventId) = some t) (hS : Singly s (.commit c eventId) t) :
    Single l t := by
  obtain ⟨db, hdb, rfl⟩ := Option.map_eq_some_iff.1 h
  have hknown := Db.known_step hI.known hdb
  simp only [Db.step] at hdb
  split_ifs at hdb with happ
  obtain ⟨job, hj, hjobs, -, hins⟩ := Db.commit_eq_some hdb
  have hid := Db.id_of_run hj
  have hw : c.succeeds s.db.jobs = true := by rw [Call.succeeds, hj]; rfl
  have hzero := hI.copies_of_commit h hS hw
  have hnew : eventId ∉ l := fun hin => hI.sent _ hin (Table.insert_eq_some.1 hins).1
  have hcopies : ∀ k, World.copies l { s with db } k
      = s.copies l k + if job.id = k then 1 else 0 := fun k => by
    unfold World.copies
    simp only [unsent_insert hins hnew]
    omega
  obtain ⟨hwr, hget⟩ := Call.writes hj
  refine ⟨fun k => ?_, fun k hk => ?_, fun o ho hol => ?_, fun i hi => ?_, hknown, hI.busy,
    hI.row_step h hS⟩
  · rw [hcopies]
    by_cases hk : job.id = k
    · rw [if_pos hk, ← hk, hid, hzero]
    · rw [if_neg hk]
      exact hI.copies k
  · have hkc : k ≠ c.id := by
      rintro rfl
      rw [hjobs, hget, if_pos rfl] at hk
      exact absurd hk (by simp)
    rw [hcopies, if_neg (by rw [hid]; exact hkc.symm)]
    rw [hjobs, hget, if_neg hkc] at hk
    exact hI.fresh k hk
  · rcases (Table.mem_insert hins).1 ho with ho | rfl
    · obtain ⟨j, hj', hq⟩ := hI.queued o ho hol
      refine ⟨j, ?_, hq⟩
      rw [← hj']
      exact get_of_step h fun e he hwe => hI.unwritten_of_unsent h ho hol he hwe
    · refine ⟨job, ?_, ?_⟩
      · simp only [newOutboxEvent]
        rw [hjobs, hget, if_pos hid]
      · rw [hwr.status]
        cases hop : c.op <;> simp [hop, JobOp.isApi] at happ <;> rfl
  · rw [get_insertOutboxEvent hins]
    split_ifs
    · simp
    · exact hI.sent i hi

theorem Single.step (hI : Single l s) {a : WorldAction} (h : s.step a = some t)
    (hS : Singly s a t) (hl : (l ++ sentEvents s a t).Nodup) :
    Single (l ++ sentEvents s a t) t := by
  by_cases ha : ∃ c eventId, a = .commit c eventId
  · obtain ⟨c, eventId, rfl⟩ := ha
    rw [show sentEvents s (.commit c eventId) t = [] from rfl, List.append_nil]
    exact hI.commit h hS
  simp only [not_exists] at ha
  have hle : ∀ k, t.copies (l ++ sentEvents s a t) k ≤ s.copies l k := fun k =>
    copies_of_step h hS hI.busy hI.known hl ha
  have hup := onlyUpdated_of_step h ha
  obtain ⟨bs, hbs⟩ := step_refines h
  refine ⟨fun k => (hle k).trans (hI.copies k), fun k hk => ?_, fun o ho hol => ?_, fun i hi => ?_,
    exec_inv (fun _ _ _ => Db.known_step) hI.known hbs, finite_busy_step hI.busy h,
    hI.row_step h hS⟩
  · have h0 := hI.fresh k (not_not.1 fun hn => get_kept h hn hk)
    have := hle k
    omega
  · have hget := get_of_updated hup o.id
    rw [Table.get_of_mem ho] at hget
    obtain ⟨o', ho', hj⟩ : ∃ o', s.db.outbox.events.get o.id = some o' ∧ o'.jobId = o.jobId :=
      Option.map_eq_some_iff.1 hget.symm
    have hid := Table.key_of_get ho'
    have hnot : o'.id ∉ l := fun hin => hol (List.mem_append_left _ (hid ▸ hin))
    obtain ⟨j, hj', hq⟩ := hI.queued o' (Table.mem_of_get ho') hnot
    refine ⟨j, ?_, hq⟩
    rw [← hj, ← hj']
    exact get_of_step h fun e he hwe => hI.unwritten_of_unsent h (Table.mem_of_get ho') hnot he hwe
  · have hs : s.db.outbox.events.get i ≠ none := by
      rcases List.mem_append.1 hi with hi | hi
      · exact hI.sent i hi
      · cases step_cases h with
        | dispatched ho =>
          rcases sentEvents_of_dispatched ho hI.known with ⟨hs, -⟩ | ⟨e, he, hs, -⟩
          · rw [hs] at hi
            simp at hi
          · rw [hs, List.mem_singleton] at hi
            rw [hi, Table.get_of_mem he]
            simp
        | committed => exact absurd rfl (ha _ _)
        | _ => simp [sentEvents] at hi
    have hget := get_of_updated hup i
    intro hn
    rw [hn] at hget
    exact hs (Option.map_eq_none_iff.1 hget.symm)

end World

end DeadLetter
