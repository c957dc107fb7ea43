import DeadLetter.Proofs.World

/-!
# The backoff between attempts

A job in `RETRYING` waits for its message in the retry queue, but any message for it wakes it. So
its backoff is kept where each worker that moved it so publishes that message, and no claim comes
of another while this one is to expire (`Covered`).
-/

namespace DeadLetter

open Transition

namespace World

variable {l : List RetryMove} {s t : World} {w : ℕ} {k : Uuid}

/-- What makes job `k` wait until `u`: the clock is there, or a retry of it expires later, or a
worker is about to publish one that does. -/
def Covered (s : World) (k : Uuid) (u : ℕ) : Prop :=
  u ≤ s.time ∨ (∃ x ∈ s.retry, x.1 = ⟨k⟩ ∧ u ≤ x.2)
    ∨ ∃ w, ∃ x ∈ (s.workers w).publishing, x.1 = ⟨k⟩ ∧ u ≤ s.time + x.2

theorem Covered.due {u : ℕ} (h : s.Covered k u) (hr : s.RetryDue k) : u ≤ s.time := by
  rcases h with h | ⟨x, hx, hk, hu⟩ | ⟨w, x, hx, hk, -⟩
  · exact h
  · exact hu.trans (hr.1 x hx hk)
  · exact absurd hk (hr.2 w x hx)

theorem publishing_eq_some {wk : Worker} {x : JobCreatedMessage × ℕ} :
    wk.publishing = some x ↔ wk.handler = some ⟨x.1, .publishRetry x.2⟩ := by
  unfold Worker.publishing
  split
  · rename_i msg d hh
    rw [hh]
    constructor
    · intro h
      obtain rfl := Option.some.inj h
      rfl
    · intro h
      simp only [Option.some.injEq, Handler.mk.injEq, HandlerPhase.publishRetry.injEq] at h
      exact congrArg some (Prod.ext h.1 h.2)
  · rename_i hn
    exact ⟨fun h => by simp at h, fun h => absurd h (hn _ _)⟩

/-- A step that drops no retry before its time, and none that is about to be published. -/
theorem Covered.of_kept {u : ℕ} (hc : s.Covered k u) (ht : s.time ≤ t.time)
    (hr : ∀ x ∈ s.retry, x ∈ t.retry ∨ x.2 ≤ t.time)
    (hw : ∀ w, ∀ x ∈ (s.workers w).publishing,
      x ∈ (t.workers w).publishing ∨ (x.1, s.time + x.2) ∈ t.retry) : t.Covered k u := by
  rcases hc with hc | ⟨x, hx, hk, hu⟩ | ⟨w, x, hx, hk, hu⟩
  · exact .inl (hc.trans ht)
  · rcases hr x hx with hx | hx
    · exact .inr (.inl ⟨x, hx, hk, hu⟩)
    · exact .inl (hu.trans hx)
  · rcases hw w x hx with hx | hx
    · exact .inr (.inr ⟨w, x, hx, hk, hu.trans (Nat.add_le_add_right ht _)⟩)
    · exact .inr (.inl ⟨_, hx, hk, hu⟩)

theorem Covered.step {u : ℕ} {a : WorldAction} (hc : s.Covered k u) (hp : Paced s a t)
    (h : s.step a = some t) : t.Covered k u := by
  have hother : ∀ v, mover a ≠ some v → ∀ x ∈ (s.workers v).publishing,
      x ∈ (t.workers v).publishing := fun v hv x hx => (workers_of_step h hv).symm ▸ hx
  cases step_cases h with
  | passed => exact hc.of_kept (Nat.le_add_right _ _) (fun x hx => .inl hx) fun w x hx => .inl hx
  | @expired msg e retry hr ht =>
    refine hc.of_kept le_rfl (fun x hx => ?_) fun w x hx => .inl hx
    rw [hr, List.mem_cons] at hx
    rcases hx with rfl | hx
    · exact .inr ht
    · exact .inl hx
  | @delivered w msg hm hn =>
    refine hc.of_kept le_rfl (fun x hx => .inl hx) fun v x hx => .inl ?_
    refine hother v (fun hv => ?_) x hx
    obtain rfl := Option.some.inj hv
    simp [Worker.publishing, hn] at hx
  | @worked w a hd hs =>
    refine hc.of_kept le_rfl (fun x hx => .inl (List.mem_append_left _ hx)) fun v x hx => ?_
    by_cases hv : v = w
    swap
    · exact .inl (hother v (fun hm => hv (Option.some.inj hm).symm) x hx)
    subst hv
    -- the worker that is about to publish does, or throws with the retry enqueued
    have hh := publishing_eq_some.1 hx
    cases Worker.step_cases hh hs with
    | publishedRetry => exact .inr (List.mem_append_right _ (List.mem_singleton.2 rfl))
    | @retryThrew _ b =>
      obtain rfl : b = true := by
        simpa using hp (Option.isSome_iff_exists.2 ⟨x, hx⟩)
      exact .inr (List.mem_append_right _ (List.mem_singleton.2 rfl))
  | @crashed w =>
    refine hc.of_kept le_rfl (fun x hx => .inl (List.mem_append_left _ hx)) fun v x hx => .inl ?_
    refine hother v (fun hv => ?_) x hx
    obtain rfl := Option.some.inj hv
    rw [show (s.workers w).publishing = none from hp] at hx
    simp at hx
  | _ => exact hc.of_kept le_rfl (fun x hx => .inl hx) fun w x hx => .inl hx

/-! ## The jobs that wait -/

theorem nextClaim_append {l₁ l₂ : List RetryMove} :
    nextClaim k (l₁ ++ l₂) = (nextClaim k l₁).or (nextClaim k l₂) := by
  simp [nextClaim, List.findSome?_append]

/-- A job moved to `RETRYING` and not claimed since is so still, and waits for its backoff. -/
structure Waits (l : List RetryMove) (s : World) : Prop where
  kept : BackoffKept l
  delay : ∀ w msg job m d, (s.workers w).handler = some ⟨msg, .record job (.retrying m d)⟩ →
    d = calculateBackoffMs job.attemptCount
  waiting : ∀ l₁ k n time l₂, l = l₁ ++ .retrying k n time :: l₂ → nextClaim k l₂ = none →
    (s.db.jobs.get k).map (·.status) = some .retrying
      ∧ s.Covered k (time + calculateBackoffMs n)

theorem retryMoves_le_one {a : WorldAction} (h : s.step a = some t) :
    s.retryMoves a t = [] ∨ ∃ x, s.retryMoves a t = [x] := by
  rcases jobs_of_step h with ⟨hn, -⟩ | ⟨e, he, -⟩
  · exact .inl (by simp [retryMoves, hn])
  · rw [retryMoves, he, List.filterMap_cons]
    split
    · exact .inl rfl
    · exact .inr ⟨_, rfl⟩

theorem claimed_mem {a : WorldAction} {time : ℕ} :
    .claimed k time ∈ s.retryMoves a t ↔ time = s.time
      ∧ ∃ e ∈ s.shown a t, e.wrote = true ∧ e.call.op = .claimJob ∧ e.call.id = k := by
  rw [retryMoves, List.mem_filterMap]
  constructor
  · rintro ⟨e, he, hm⟩
    split at hm
    · rename_i hw ho
      obtain ⟨hk, ht⟩ := RetryMove.claimed.inj (Option.some.inj hm)
      exact ⟨ht.symm, e, he, hw, ho, hk⟩
    · simp at hm
    · simp at hm
  · rintro ⟨rfl, e, he, hw, ho, rfl⟩
    exact ⟨e, he, by simp [hw, ho]⟩

/-- A job is moved to `RETRYING` by a worker that was to record so of the attempt it has. -/
theorem retrying_mem {a : WorldAction} (h : s.step a = some t) {n time : ℕ}
    (hm : .retrying k n time ∈ s.retryMoves a t) :
    time = s.time ∧ ∃ w reply e job m d, a = .work w (.record reply) ∧ e ∈ s.shown a t
      ∧ e.wrote = true ∧ e.call.op = .markRetrying m ∧ e.call.id = k ∧ n = job.attemptCount
      ∧ (s.workers w).handler = some ⟨⟨k⟩, .record job (.retrying m d)⟩ := by
  obtain ⟨e, he, hm⟩ := List.mem_filterMap.1 hm
  split at hm
  · simp at hm
  · rename_i m job hw ho ha
    obtain ⟨hk, hn, ht⟩ := RetryMove.retrying.inj (Option.some.inj hm)
    rcases shown_cases h he with ⟨_, -, -, hapi⟩ | ⟨w, a', rfl, hwk, hc, -⟩
    · simp [ho, JobOp.isApi] at hapi
    rw [hwk] at ha
    replace ha : (s.workers w).active = some job := ha
    rcases Worker.call_cases hc with ⟨msg, reply, -, -, -, hce⟩
      | ⟨msg, job', outcome, reply, hh, rfl, -, hce⟩
    · simp [hce] at ho
    · obtain rfl : job' = job := Option.some.inj ((active_record hh).symm.trans ha)
      rw [hce] at ho hk
      obtain rfl : msg = ⟨k⟩ := by rw [← hk]
      cases outcome with
      | retrying m' d =>
        obtain rfl : m' = m := JobOp.markRetrying.inj ho
        exact ⟨ht.symm, w, reply, e, job', m', d, rfl, he, hw, by rw [hce]; rfl, by rw [hce],
          hn.symm, hh⟩
      | _ => simp [Outcome.op] at ho
  · simp at hm

/-- A job in `RETRYING` is left so, but by a claim. -/
theorem retrying_step {a : WorldAction} (h : s.step a = some t)
    (hs : (s.db.jobs.get k).map (·.status) = some .retrying)
    (hn : ∀ time, .claimed k time ∉ s.retryMoves a t) :
    (t.db.jobs.get k).map (·.status) = some .retrying := by
  rcases row_cases h k with ⟨ht, -⟩ | ⟨e, j, he, hw, hk, -, hwr⟩
  · rw [ht, hs]
  · obtain ⟨i, hi, hst⟩ := Option.map_eq_some_iff.1 hs
    rw [hi] at hwr
    exact absurd (claimed_mem.2 ⟨rfl, e, by simp [he], hw, hwr.op_of_retrying hst, hk⟩)
      (hn s.time)

theorem nextClaim_singleton {x : RetryMove} {τ : ℕ} :
    nextClaim k [x] = some τ ↔ x = .claimed k τ := by
  cases x with
  | retrying => simp [nextClaim]
  | claimed k' time =>
    by_cases hk : k' = k <;> simp [nextClaim, hk]

/-- A claim finds that the backoff of its job is over. -/
theorem Waits.claim {a : WorldAction} (hI : Waits l s) (h : s.step a = some t)
    (hp : Paced s a t) {l₁ l₂ : List RetryMove} {n time τ : ℕ}
    (hl : l = l₁ ++ .retrying k n time :: l₂) (hnext : nextClaim k l₂ = none)
    (hm : .claimed k τ ∈ s.retryMoves a t) : time + calculateBackoffMs n ≤ τ := by
  obtain ⟨hst, hc⟩ := hI.waiting l₁ k n time l₂ hl hnext
  obtain ⟨rfl, e, he, hw, ho, rfl⟩ := claimed_mem.1 hm
  refine hc.due ?_
  rcases shown_cases h he with ⟨_, -, -, hapi⟩ | ⟨w, a', rfl, -, hcall, -⟩
  · simp [ho, JobOp.isApi] at hapi
  rcases Worker.call_cases hcall with ⟨_, _, -, rfl, -, -⟩ | ⟨_, _, outcome, _, -, -, -, hce⟩
  · exact hp e he hst
  · rw [hce] at ho
    cases outcome <;> simp [Outcome.op] at ho

/-- A worker that moves a job to `RETRYING` is about to publish its retry. -/
theorem Waits.retry {a : WorldAction} (hI : Waits l s) (h : s.step a = some t)
    (hp : Paced s a t) {n time : ℕ} (hm : .retrying k n time ∈ s.retryMoves a t) :
    (t.db.jobs.get k).map (·.status) = some .retrying
      ∧ t.Covered k (time + calculateBackoffMs n) := by
  obtain ⟨rfl, w, reply, e, job, m, d, rfl, he, hw, ho, rfl, rfl, hh⟩ := retrying_mem h hm
  obtain ⟨j, hj, hwr⟩ := written_row h he hw
  refine ⟨by rw [hj, Option.map_some, hwr.status, ho]; rfl, .inr (.inr ⟨w, (⟨e.call.id⟩, d), ?_⟩)⟩
  have hd := hI.delay w _ job m d hh
  have hrep : e.replied = true := hp m e he ho hw
  rcases shown_cases h he with ⟨_, hne, -⟩ | ⟨w', a', heq, -, hc, hr⟩
  · simp at hne
  obtain ⟨rfl, rfl⟩ := WorldAction.work.inj heq
  rw [hrep] at hr
  obtain rfl : reply = .ok := by simpa [HandlerAction.replied] using hr.symm
  cases step_cases h with
  | worked hs =>
    cases Worker.step_cases hh hs with
    | recorded =>
      refine ⟨publishing_eq_some.2 ?_, rfl, by simp [handled, hd]⟩
      simp [handled, Worker.go, Worker.afterRecord]
    | recordThrew hn =>
      have hce : e.call = ⟨e.call.id, s.now, (Outcome.retrying m d).op⟩ := by
        simpa [Worker.call, hh, Reply.executed] using hc.symm
      rw [wrote_of_shown h he, Call.succeeds, hce, hn rfl] at hw
      simp at hw

theorem delay_of_outcomeOf {job : Job} {r : Except ProcessingError Unit} {m : String} {d : ℕ}
    (h : outcomeOf job r = .retrying m d) : d = calculateBackoffMs job.attemptCount := by
  unfold outcomeOf at h
  split at h
  · simp at h
  · split_ifs at h
    exact (Outcome.retrying.inj h).2.symm

theorem Waits.step {a : WorldAction} (hI : Waits l s) (hp : Paced s a t)
    (h : s.step a = some t) : Waits (l ++ s.retryMoves a t) t := by
  refine ⟨?_, fun w msg job m d hh => ?_, ?_⟩
  · intro l₁ k n time l₂ hl next hnext
    rcases retryMoves_le_one h with hx | ⟨x, hx⟩ <;> rw [hx] at hl
    · exact hI.kept l₁ k n time l₂ (by simpa using hl) next hnext
    rcases concat_eq_append_cons hl with ⟨rfl, -, -⟩ | ⟨l₃, rfl, hl'⟩
    · simp [nextClaim] at hnext
    rw [nextClaim_append, Option.mem_def] at hnext
    rcases hn : nextClaim k l₃ with _ | τ <;> rw [hn] at hnext
    · obtain rfl := nextClaim_singleton.1 hnext
      exact hI.claim h hp hl' hn (by simp [hx])
    · exact hI.kept l₁ k n time l₃ hl' next (hn.trans hnext)
  · rcases record_of_step h hh with hs | ho
    · exact hI.delay w msg job m d hs
    · exact delay_of_outcomeOf ho.symm
  · intro l₁ k n time l₂ hl hnext
    have hold : ∀ l₃, l = l₁ ++ .retrying k n time :: l₃ → nextClaim k l₃ = none →
        (∀ τ, .claimed k τ ∉ s.retryMoves a t) → (t.db.jobs.get k).map (·.status) = some .retrying
          ∧ t.Covered k (time + calculateBackoffMs n) := fun l₃ hl hnext hn =>
      (hI.waiting l₁ k n time l₃ hl hnext).imp (retrying_step h · hn) (·.step hp h)
    rcases retryMoves_le_one h with hx | ⟨x, hx⟩ <;> rw [hx] at hl
    · exact hold l₂ (by simpa using hl) hnext (by simp [hx])
    rcases concat_eq_append_cons hl with ⟨-, rfl, -⟩ | ⟨l₃, rfl, hl'⟩
    · exact hI.retry h hp (by simp [hx])
    rw [nextClaim_append, Option.or_eq_none_iff] at hnext
    refine hold l₃ hl' hnext.1 fun τ hm => ?_
    rw [hx, List.mem_singleton] at hm
    rw [nextClaim_singleton.2 hm.symm] at hnext
    exact absurd hnext.2 (by simp)

theorem waits_init : Waits [] init := by
  refine ⟨fun l₁ k n time l₂ hl => ?_, fun w msg job m d hh => by simp [init] at hh,
    fun l₁ k n time l₂ hl => ?_⟩ <;> simp at hl

/-- A job moved to `RETRYING` after attempt `n` is next claimed `calculateBackoffMs n` milliseconds
later or more, where every retry is published by the worker that made the move and no claim comes
before one is due. -/
theorem backoff_kept {as : List WorldAction} (h : exec step init as = some s)
    (hp : Steps step Paced init as) : BackoffKept (trace step retryMoves init as) := by
  have hW : Waits (trace step retryMoves init as) s :=
    exec_trace_inv_of_steps (fun l s a t hI hp h => hI.step hp h) waits_init hp h
  exact hW.kept

/-- What makes a step `Paced` where no worker but 0 has ever moved. -/
def pacedAlone (s : World) (a : WorldAction) (t : World) : Bool :=
  match a with
  | .work _ (.record reply) => reply = .ok
  | .work _ (.publish ok enqueued) => ok || enqueued
  | .crash w => (s.workers w).publishing = none
  | .work _ (.claimJob _) => (s.shown a t).all fun e =>
      s.retry.all (fun x => x.1 ≠ ⟨e.call.id⟩ || x.2 ≤ s.time) && (s.workers 0).publishing.isNone
  | _ => true

theorem paced_of_alone {as : List WorldAction} (ha : ∀ a ∈ as, ∀ w ∈ mover a, w = 0)
    (hp : Steps step (fun s a t => pacedAlone s a t = true) init as) :
    Steps step Paced init as := by
  refine steps_iff.2 fun bs a cs has t u ht hu => ?_
  have hb := steps_iff.1 hp bs a cs has t u ht hu
  unfold pacedAlone at hb
  unfold Paced
  split at hb
  · rename_i w reply
    intro m e he _ _
    rcases shown_cases hu he with ⟨_, hn, -⟩ | ⟨w', a', heq, -, -, hr⟩
    · simp at hn
    · obtain ⟨rfl, rfl⟩ := WorldAction.work.inj heq
      rw [hr, HandlerAction.replied]
      exact hb
  · exact fun _ => by simpa using hb
  · simpa using hb
  · intro e he _
    obtain ⟨hretry, h0⟩ := Bool.and_eq_true_iff.1 (List.all_eq_true.1 hb e he)
    refine ⟨fun x hx hk => by simpa [hk] using List.all_eq_true.1 hretry x hx, fun v x hx => ?_⟩
    by_cases hv : v = 0
    · rw [hv, Option.isNone_iff_eq_none.1 h0] at hx
      simp at hx
    · have hidle : t.workers v = init.workers v := workers_of_exec ht fun b hb hm =>
        hv (ha b (has ▸ List.mem_append_left _ hb) v hm)
      rw [hidle] at hx
      simp [init, Worker.publishing] at hx
  · simp_all

/-- A job that fails once, and the retry of which is taken. -/
def failedJob : List WorldAction :=
  [.commit ⟨1, 0, .createJob "email" [("shouldFail", .bool true)]⟩ 7,
    .dispatch 0 (.claim {} .ok), .dispatch 0 (.publish .ok),
    .dispatch 0 (.markPublished .ok (.value "")), .deliver 0 ⟨1⟩, .work 0 (.claimJob .ok),
    .work 0 .processJob, .work 0 (.record .ok)]

def retryTaken : List WorldAction :=
  failedJob ++ [.work 0 (.publish true true), .work 0 .ack, .pass 2000 0, .expire, .deliver 0 ⟨1⟩,
    .work 0 (.claimJob .ok)]

theorem backoff_kept_retryTaken : ∃ s, exec step init retryTaken = some s
    ∧ BackoffKept (trace step retryMoves init retryTaken)
    ∧ trace step retryMoves init retryTaken
      = [.claimed 1 0, .retrying 1 1 0, .claimed 1 2000] :=
  ⟨_, rfl, @backoff_kept _ retryTaken rfl (paced_of_alone (by decide) (by decide)), by decide⟩

/-- The retry is enqueued, but its publish throws: the message is redelivered too, a second
later, and wakes the job. -/
def retryThrown : List WorldAction :=
  failedJob ++ [.work 0 (.publish false true), .pass 1000 0, .work 0 .requeue, .deliver 0 ⟨1⟩,
    .work 0 (.claimJob .ok)]

theorem retryThrown_early : ∃ s, exec step init retryThrown = some s
    ∧ ¬ BackoffKept (trace step retryMoves init retryThrown) := by
  have htr : trace step retryMoves init retryThrown
      = [.claimed 1 0, .retrying 1 1 0, .claimed 1 1000] := by decide
  refine ⟨_, rfl, fun h => ?_⟩
  have := h [.claimed 1 0] 1 1 0 [.claimed 1 1000] htr 1000 rfl
  exact absurd this (by decide)

end World

end DeadLetter
