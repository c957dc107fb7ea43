import DeadLetter.Proofs.World

/-!
# What wakes a job

A job is held while an event for it is due, a message for it is in a queue, or a worker keeps its
message. A hold is passed on by every step but two (`Held.step`): a worker lets its message go
when it has recorded the job's last outcome, or when its claim returns `null`. The first leaves
the job in no need of it, the second does so unless the job is in `PROCESSING`.
-/

namespace DeadLetter

open Transition

namespace World

variable {s t : World} {w : ℕ} {k : Uuid}

def Keeps (wk : Worker) (k : Uuid) : Prop :=
  ∃ h, wk.handler = some h ∧ h.msg = ⟨k⟩ ∧ h.phase.keeps = true

def IsHeld (s : World) (k : Uuid) : Prop := s.Held (fun _ => True) k

theorem Keeps.isHeld (h : Keeps (s.workers w) k) : s.IsHeld k := by
  obtain ⟨hd, hh, hm, hp⟩ := h
  exact .inr (.inr (.inr ⟨w, hd, trivial, hh, hm, hp⟩))

theorem isHeld_iff (w : ℕ) : s.IsHeld k ↔ s.Held (· ≠ w) k ∨ Keeps (s.workers w) k := by
  constructor
  · rintro (hd | hm | hr | ⟨v, h, -, hh, hm, hp⟩)
    · exact .inl (.inl hd)
    · exact .inl (.inr (.inl hm))
    · exact .inl (.inr (.inr (.inl hr)))
    · by_cases hv : v = w
      · exact .inr ⟨h, hv ▸ hh, hm, hp⟩
      · exact .inl (.inr (.inr (.inr ⟨v, h, hv, hh, hm, hp⟩)))
  · rintro ((hd | hm | hr | ⟨v, h, -, hh, hm, hp⟩) | hk)
    · exact .inl hd
    · exact .inr (.inl hm)
    · exact .inr (.inr (.inl hr))
    · exact .inr (.inr (.inr ⟨v, h, trivial, hh, hm, hp⟩))
    · exact hk.isHeld

theorem Held.handled {db : Db} {hd : Handled} (hs : s.Held (· ≠ w) k)
    (hdb : db.outbox = s.db.outbox) : (World.handled { s with db } w hd).IsHeld k := by
  rcases hs with hs | hm | ⟨u, hr⟩ | ⟨v, h, hv, hh, hm⟩
  · exact .inl (by simpa only [World.handled, hdb] using hs)
  · exact .inr (.inl (List.mem_append_left _ hm))
  · exact .inr (.inr (.inl ⟨u, List.mem_append_left _ hr⟩))
  · refine .inr (.inr (.inr ⟨v, h, trivial, ?_, hm⟩))
    simpa only [World.handled, Function.update_of_ne hv] using hh

theorem afterCall_outbox (db : Db) (c : Option Call) : (afterCall db c).outbox = db.outbox := by
  cases c <;> rfl

theorem keeps_handled {db : Db} {hd : Handled} (h : Keeps hd.worker k) :
    (World.handled { s with db } w hd).IsHeld k :=
  Keeps.isHeld (w := w) (by simpa only [World.handled, Function.update_self] using h)

theorem keeps_go {wk : Worker} {msg : JobCreatedMessage} {phase : HandlerPhase}
    (hm : msg = ⟨k⟩) (hp : phase.keeps = true) : Keeps (wk.go msg phase) k :=
  ⟨_, rfl, hm, hp⟩

theorem keeps_backoff {wk : Worker} {msg : JobCreatedMessage} {time : ℕ} (hm : msg = ⟨k⟩) :
    Keeps (wk.backoffBeforeRequeue time msg) k :=
  ⟨_, rfl, hm, rfl⟩

/-- A worker whose call changed its job keeps the message, unless the job needs it no more. -/
theorem keeps_of_call {now : ℤ} {time : ℕ} {jobs : Jobs} {wk : Worker} {a : HandlerAction}
    {hd : Handled} {c : Call} (hs : wk.step now time jobs a = some hd)
    (hc : wk.call now a = some c) (hw : c.succeeds jobs = true) :
    Keeps hd.worker c.id ∨ c.op.status = .completed ∨ c.op.status = .deadLettered := by
  rcases Worker.call_cases hc with ⟨msg, reply, hh, rfl, -, rfl⟩
    | ⟨msg, job, outcome, reply, hh, rfl, -, rfl⟩
  · refine .inl ?_
    cases Worker.step_cases hh hs with
    | claimed => exact ⟨_, rfl, rfl, rfl⟩
    | notClaimed hj =>
      rw [Call.succeeds, show (Call.run jobs ⟨msg.jobId, now, .claimJob⟩).2 = none from hj] at hw
      simp at hw
    | claimThrew => exact keeps_backoff rfl
  · cases Worker.step_cases hh hs with
    | recorded =>
      cases outcome with
      | retrying m delayMs => exact .inl (keeps_go rfl rfl)
      | completed => exact .inr (.inl rfl)
      | deadLettered m b => exact .inr (.inr rfl)
    | recordThrew => exact .inl (keeps_backoff rfl)

/-- A worker that keeps a message passes it on, unless its claim returns `null` or it has
recorded the job's last outcome. -/
theorem Keeps.step {a : HandlerAction} {hd : Handled} (hk : Keeps (s.workers w) k)
    (hs : (s.workers w).step s.now s.time s.db.jobs a = some hd)
    (ht : World.handled { s with db := afterCall s.db ((s.workers w).call s.now a) } w hd = t) :
    t.IsHeld k
      ∨ (a = .claimJob .ok ∧ (s.workers w).handler = some ⟨⟨k⟩, .claimJob⟩
        ∧ (claimJob s.now s.db.jobs k).2 = none)
      ∨ ∃ j, t.db.jobs.get k = some j ∧ (j.status = .completed ∨ j.status = .deadLettered) := by
  subst ht
  obtain ⟨⟨msg, phase⟩, hh, hm, hp⟩ := hk
  obtain rfl : msg = ⟨k⟩ := hm
  cases Worker.step_cases hh hs with
  | claimed => exact .inl (keeps_handled ⟨_, rfl, rfl, rfl⟩)
  | notClaimed hj => exact .inr (.inl ⟨rfl, hh, hj⟩)
  | @recorded job row outcome hj =>
    have hrow : (afterCall s.db ((s.workers w).call s.now (.record .ok))).jobs.get k
        = some row := by
      simp only [Worker.call, hh, Reply.executed, if_true, afterCall]
      exact ((Call.writes hj).2 k).trans (if_pos rfl)
    have hw := (Call.writes hj).1
    cases outcome with
    | retrying m delayMs => exact .inl (keeps_handled (keeps_go rfl rfl))
    | completed => exact .inr (.inr ⟨row, hrow, .inl hw.status⟩)
    | deadLettered => exact .inr (.inr ⟨row, hrow, .inr hw.status⟩)
  | processed => exact .inl (keeps_handled (keeps_go rfl rfl))
  | claimThrew => exact .inl (keeps_handled (keeps_backoff rfl))
  | recordThrew => exact .inl (keeps_handled (keeps_backoff rfl))
  | retryThrew => exact .inl (keeps_handled (keeps_backoff rfl))
  | deadLetterThrew => exact .inl (keeps_handled (keeps_backoff rfl))
  | publishedRetry =>
    exact .inl (.inr (.inr (.inl ⟨_, List.mem_append_right _ (List.mem_singleton.2 rfl)⟩)))
  | requeued => exact .inl (.inr (.inl (List.mem_append_right _ (List.mem_singleton.2 rfl))))
  | read => simp [HandlerPhase.keeps] at hp
  | publishedDeadLetter => simp [HandlerPhase.keeps] at hp
  | acked => simp [HandlerPhase.keeps] at hp

/-- A hold is passed on by every step but two. -/
theorem IsHeld.step {a : WorldAction} (hI : s.IsHeld k) (hK : s.db.outbox.Known)
    (h : s.step a = some t) : t.IsHeld k
      ∨ (∃ w, a = .work w (.claimJob .ok) ∧ (s.workers w).handler = some ⟨⟨k⟩, .claimJob⟩
        ∧ (claimJob s.now s.db.jobs k).2 = none)
      ∨ ∃ j, t.db.jobs.get k = some j ∧ (j.status = .completed ∨ j.status = .deadLettered) := by
  cases step_cases h with
  | passed => exact .inl hI
  | committed _ hc =>
    refine .inl (hI.imp_left fun hd => ?_)
    obtain ⟨job, -, -, hr, he⟩ := Db.commit_eq_some hc
    have := hd.insert he
    rwa [← hr] at this
  | dispatched ho =>
    rcases hI with hd | hm | hr
    · rcases hd.step hK ho with hd | ⟨rfl, run, hr, rfl⟩
      · exact .inl (.inl hd)
      · refine .inl (.inr (.inl (List.mem_append_right _ ?_)))
        simp [enqueued, PublishReply.enqueued, hr]
    · exact .inl (.inr (.inl (List.mem_append_left _ hm)))
    · exact .inl (.inr (.inr hr))
  | expired hq =>
    rcases hI with hd | hm | ⟨u, hr⟩ | hw
    · exact .inl (.inl hd)
    · exact .inl (.inr (.inl (List.mem_append_left _ hm)))
    · rw [hq, List.mem_cons] at hr
      rcases hr with hr | hr
      · obtain ⟨rfl, -⟩ := Prod.mk.inj hr
        exact .inl (.inr (.inl (List.mem_append_right _ (List.mem_singleton.2 rfl))))
      · exact .inl (.inr (.inr (.inl ⟨u, hr⟩)))
    · exact .inl (.inr (.inr (.inr hw)))
  | @delivered w msg _ hn =>
    rcases hI with hd | hm | hr | ⟨v, hd, -, hh, hp⟩
    · exact .inl (.inl hd)
    · by_cases hmsg : msg = ⟨k⟩
      · refine .inl (Keeps.isHeld (w := w) ?_)
        simpa only [Function.update_self] using keeps_go hmsg rfl
      · exact .inl (.inr (.inl ((List.mem_erase_of_ne (Ne.symm hmsg)).2 hm)))
    · exact .inl (.inr (.inr (.inl hr)))
    · have hv : v ≠ w := by
        rintro rfl
        rw [hn] at hh
        exact absurd hh (by simp)
      refine .inl (.inr (.inr (.inr ⟨v, hd, trivial, ?_, hp⟩)))
      simpa only [Function.update_of_ne hv] using hh
  | @worked w a hd hs =>
    rcases (isHeld_iff w).1 hI with hI | hk
    · exact .inl (hI.handled (afterCall_outbox _ _))
    · rcases hk.step hs rfl with ht | ⟨rfl, hn⟩ | ht
      · exact .inl ht
      · exact .inr (.inl ⟨w, rfl, hn⟩)
      · exact .inr (.inr ht)
  | @crashed w =>
    rcases (isHeld_iff w).1 hI with hI | ⟨hd, hh, hm, -⟩
    · exact .inl (hI.handled rfl)
    · refine .inl (.inr (.inl (List.mem_append_right _ ?_)))
      simp [Worker.crash, hh, hm]

/-! ## Jobs that are not settled -/

structure Awake (p : Uuid → JobStatus → Prop) (s : World) : Prop where
  known : s.db.outbox.Known
  held : ∀ k j, s.db.jobs.get k = some j → p k j.status → s.IsHeld k

/-- Jobs that are not settled stay held, where a claim that returns `null` leaves them so. -/
theorem Awake.step {p : Uuid → JobStatus → Prop}
    (hp : ∀ k, ¬ p k .completed ∧ ¬ p k .deadLettered)
    (hI : Awake p s) {a : WorldAction} (h : s.step a = some t)
    (hnull : ∀ w k j, a = .work w (.claimJob .ok) →
      (s.workers w).handler = some ⟨⟨k⟩, .claimJob⟩ → s.db.jobs.get k = some j →
      j.claimable s.now = false → p k j.status → s.Held (· ≠ w) k) : Awake p t := by
  obtain ⟨bs, hbs⟩ := step_refines h
  refine ⟨exec_inv (fun _ _ _ => Db.known_step) hI.known hbs, fun k j hj hpj => ?_⟩
  rcases row_cases h k with ⟨hs, -⟩ | ⟨e, i, he, hw, rfl, hi, hwr⟩
  · rw [hj] at hs
    replace hs := hs.symm
    rcases (hI.held k j hs hpj).step hI.known h with ht | ⟨w, rfl, hh, hn⟩ | ⟨i, hi, hst⟩
    · exact ht
    · cases step_cases h
      have hc := (JobUpdate.run_snd_eq_none _ _ _).1 hn j hs
      exact (hnull w k j rfl hh hs hc hpj).handled (afterCall_outbox _ _)
    · rw [hj] at hi
      obtain rfl := Option.some.inj hi
      rcases hst with hst | hst <;> rw [hst] at hpj
      · exact absurd hpj (hp k).1
      · exact absurd hpj (hp k).2
  · obtain rfl : i = j := Option.some.inj (hi.symm.trans hj)
    cases step_cases h with
    | @committed c eventId db ha hc =>
      obtain rfl : { worker := none, call := c, wrote := _, replied := true } = e := by
        simpa [shown] using he
      obtain ⟨job, hjob, -, hr, hev⟩ := Db.commit_eq_some hc
      have := Outbox.due_insert hI.known hev
      rw [← hr, Db.id_of_run hjob] at this
      exact .inl this
    | @worked w a hd hs =>
      rcases hc : (s.workers w).call s.now a with _ | c <;>
        simp only [shown, hc, Option.toList_none, Option.toList_some, List.map_nil,
          List.map_cons, List.cons.injEq, and_true, reduceCtorEq] at he
      subst he
      rcases keeps_of_call hs hc hw with hk | hst | hst
      · exact keeps_handled hk
      · exact absurd (hwr.status.trans hst ▸ hpj) (hp _).1
      · exact absurd (hwr.status.trans hst ▸ hpj) (hp _).2
    | _ => simp [shown] at he

theorem awake_init (p : Uuid → JobStatus → Prop) : Awake p init :=
  ⟨fun _ _ h => by simp [init, Db.init] at h, fun _ _ h => by simp [init, Db.init] at h⟩

theorem IsHeld.backed (h : s.IsHeld k) : s.Backed k := by
  rcases h with ⟨e, he, hj, hp, -⟩ | hm | hr | ⟨w, hd, -, hh, hm, -⟩
  · exact .inl ⟨e, he, hj, hp⟩
  · exact .inr (.inl hm)
  · exact .inr (.inr (.inl hr))
  · exact .inr (.inr (.inr ⟨w, hd, hh, hm⟩))

/-- In every state the system reaches, a waiting job has what wakes it. -/
theorem waiting_job_wakes {as : List WorldAction} (h : exec step init as = some s) :
    s.WakesWaiting := by
  have hA : Awake (fun _ st => st = .queued ∨ st = .retrying) s := by
    refine exec_inv (fun s a t hI h => hI.step (by simp) h ?_) (awake_init _) h
    intro w k j _ _ _ hc hst
    rcases hst with hst | hst <;> simp [Job.claimable, hst] at hc
  exact fun j hj hst => (hA.held j.id j (Table.get_of_mem hj) hst).backed

/-- A retry that could not be published: its job waits, its message is redelivered. -/
def unpublishedRetry : List WorldAction :=
  [.commit ⟨1, 0, .createJob "email" [("shouldFail", .bool true)]⟩ 7,
    .dispatch 0 (.claim {} .ok), .dispatch 0 (.publish .ok),
    .dispatch 0 (.markPublished .ok (.value "")), .deliver 0 ⟨1⟩, .work 0 (.claimJob .ok),
    .work 0 .processJob, .work 0 (.record .ok), .work 0 (.publish false false)]

theorem waiting_job_wakes_unpublishedRetry : ∃ s, exec step init unpublishedRetry = some s
    ∧ (s.db.jobs.get 1).map (·.status) = some .retrying ∧ s.WakesWaiting :=
  ⟨_, rfl, by decide, @waiting_job_wakes _ unpublishedRetry rfl⟩

/-! ## Orphans -/

/-- A job is left in `PROCESSING` with a worker on it, or with what wakes it, where no claim that
returns `null` lets go of the last that held it. -/
theorem none_orphaned {as : List WorldAction} (h : exec step init as = some s)
    (hA : Steps step Attended init as) : s.NoneOrphaned := by
  have hI : Awake (fun _ st => st = .queued ∨ st = .retrying ∨ st = .processing) s := by
    refine exec_inv_of_steps (fun s a t hI hR h => hI.step (by simp) h ?_) (awake_init _) hA h
    rintro w k j rfl hh hj hc (hst | hst | hst)
    · simp [Job.claimable, hst] at hc
    · simp [Job.claimable, hst] at hc
    · exact hR _ j hh hj hst hc
  exact fun j hj hst => .inr (hI.held j.id j (Table.get_of_mem hj) (.inr (.inr hst))).backed

/-- Worker `v` keeps the message of a job that a claim finds in `PROCESSING`. -/
def attendedBy (v : ℕ) (s : World) : WorldAction → Bool
  | .work w (.claimJob .ok) => match (s.workers w).handler with
    | some h => (s.db.jobs.get h.msg.jobId).map (·.status) ≠ some .processing
      || v ≠ w && ((s.workers v).handler.map fun g => (g.msg, g.phase.keeps)) = some (h.msg, true)
    | none => true
  | _ => true

theorem attended_of_attendedBy {v : ℕ} {a : WorldAction} (h : attendedBy v s a = true) :
    Attended s a t := by
  unfold Attended
  split
  · rename_i w
    intro msg j hh hj hst _
    simp only [attendedBy, hh, hj, Option.map_some, hst, ne_eq, not_true_eq_false, decide_false,
      Bool.false_or, Bool.and_eq_true, decide_eq_true_eq, Option.map_eq_some_iff,
      Prod.mk.injEq] at h
    obtain ⟨hv, g, hg, hm, hk⟩ := h
    exact .inr (.inr (.inr ⟨v, g, hv, hg, hm, hk⟩))
  · trivial

/-- A message published twice, and delivered to a second worker while the first has the job. -/
def duplicateDelivery : List WorldAction :=
  [.commit ⟨1, 0, .createJob "email" []⟩ 7, .dispatch 0 (.claim {} .ok),
    .dispatch 0 (.publish (.threw (.value "") true)), .dispatch 0 (.markFailed .ok),
    .dispatch 0 (.claim {} .ok), .dispatch 0 (.publish .ok),
    .dispatch 0 (.markPublished .ok (.value "")), .deliver 0 ⟨1⟩, .work 0 (.claimJob .ok),
    .deliver 1 ⟨1⟩, .work 1 (.claimJob .ok), .work 1 .getJobById, .work 1 .ack]

theorem none_orphaned_duplicateDelivery : ∃ s, exec step init duplicateDelivery = some s
    ∧ (s.db.jobs.get 1).map (·.status) = some .processing ∧ s.NoneOrphaned := by
  have hA : Steps step Attended init duplicateDelivery := by
    have : Steps step (fun s a _ => attendedBy 0 s a = true) init duplicateDelivery := by decide
    exact this.mono fun s a t => attended_of_attendedBy
  exact ⟨_, rfl, by decide, @none_orphaned _ duplicateDelivery rfl hA⟩

/-- A completion that could not be recorded, and is requeued and delivered again a second later:
the claim finds the job in `PROCESSING` and not stale, and the delivery is acknowledged. -/
def earlyRedelivery : List WorldAction :=
  [.commit ⟨1, 0, .createJob "email" []⟩ 7, .dispatch 0 (.claim {} .ok),
    .dispatch 0 (.publish .ok), .dispatch 0 (.markPublished .ok (.value "")), .deliver 0 ⟨1⟩,
    .work 0 (.claimJob .ok), .work 0 .processJob, .work 0 (.record .failed),
    .pass 1000 (seconds 1), .work 0 .requeue, .deliver 0 ⟨1⟩, .work 0 (.claimJob .ok),
    .work 0 .getJobById, .work 0 .ack]

theorem earlyRedelivery_orphans : ∃ s, exec step init earlyRedelivery = some s
    ∧ ¬ s.NoneOrphaned := by
  have hend : (exec step init earlyRedelivery).map (fun s => (s.db.jobs.rows.map (·.status),
      s.db.outbox.events.rows.map (·.publishedAt), s.main, s.retry, (s.workers 0).handler))
        = some ([.processing], [some 0], [], [], none) := rfl
  obtain ⟨s, hs, hend⟩ := Option.map_eq_some_iff.1 hend
  simp only [Prod.mk.injEq] at hend
  obtain ⟨hst, hpub, hm, hr, h0⟩ := hend
  have hidle := idle_of_exec hs (by decide) h0
  obtain ⟨j, hj, hjst⟩ : ∃ j ∈ s.db.jobs, j.status = .processing :=
    List.mem_map.1 (hst ▸ List.mem_singleton_self _)
  refine ⟨s, hs, fun h => ?_⟩
  rcases h j hj hjst with ⟨w, job, ha, -⟩ | ⟨e, he, -, hp⟩ | hm' | ⟨u, hr'⟩ | ⟨w, hd, hh, -⟩
  · simp [Worker.active, hidle w] at ha
  · have := List.mem_map_of_mem (f := fun e : OutboxEvent => e.publishedAt) he
    rw [hpub, hp] at this
    simp at this
  · simp [hm] at hm'
  · simp [hr] at hr'
  · simp [hidle w] at hh

end World

end DeadLetter
