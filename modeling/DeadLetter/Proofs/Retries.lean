import DeadLetter.Proofs.Outage
import DeadLetter.Proofs.Backoff

/-!
# The wait of a retry

A retry expires at the head of its queue only, so one with a short delay waits behind those with a
longer one that were published before it. It does not wait for long: no delay is above 20 seconds,
so that 20 seconds after a retry was published everything before it has expired too.
-/

namespace DeadLetter

open Transition

/-- `MAX_DELAY_MS`. -/
theorem calculateBackoffMs_le (n : ℕ) : calculateBackoffMs n ≤ 20000 := min_le_right _ _

/-- The delay a handler in this phase will publish a retry with, if it publishes one. -/
def HandlerPhase.delay : HandlerPhase → Option ℕ
  | .record _ (.retrying _ delayMs) | .publishRetry delayMs => some delayMs
  | _ => none

theorem delay_outcomeOf {job : Job} {r : Except ProcessingError Unit} {d : ℕ}
    (h : (HandlerPhase.record job (outcomeOf job r)).delay = some d) : d ≤ 20000 := by
  rcases ho : outcomeOf job r with _ | ⟨m, b⟩ | ⟨m, delayMs⟩ <;> rw [ho] at h
  · simp [HandlerPhase.delay] at h
  · simp [HandlerPhase.delay] at h
  · obtain rfl := Option.some.inj h
    rw [World.delay_of_outcomeOf ho]
    exact calculateBackoffMs_le _

theorem delay_afterRecord (job : Job) (outcome : Outcome) :
    (Worker.afterRecord outcome).delay = (HandlerPhase.record job outcome).delay := by
  cases outcome <;> rfl

namespace Worker

/-- Every delay that the worker has in hand is within the cap. -/
def Capped (wk : Worker) : Prop :=
  ∀ h, wk.handler = some h → ∀ d, h.phase.delay = some d → d ≤ 20000

theorem capped_go {wk : Worker} {msg : JobCreatedMessage} {phase : HandlerPhase} :
    (wk.go msg phase).Capped ↔ ∀ d, phase.delay = some d → d ≤ 20000 := by
  simp [Capped, go]

theorem capped_idle {wk : Worker} (h : wk.handler = none) : wk.Capped := by
  simp [Capped, h]

theorem capped_backoff {time : ℕ} {wk : Worker} {msg : JobCreatedMessage} :
    (wk.backoffBeforeRequeue time msg).Capped := by
  simp [Capped, backoffBeforeRequeue, HandlerPhase.delay]

/-- A delay comes from `calculateBackoffMs`, and a retry is published with the one in hand. -/
theorem Capped.step {now : ℤ} {time : ℕ} {jobs : Jobs} {wk : Worker} {a : HandlerAction}
    {hd : Handled} (hw : wk.Capped) (hs : wk.step now time jobs a = some hd) :
    hd.worker.Capped ∧ ∀ x ∈ hd.retry, x.2 ≤ time + 20000 := by
  obtain ⟨msg, phase, hh, hstep⟩ := handler_of_step hs
  have hd := hw _ hh
  cases hstep with
  | claimed hj => exact ⟨by simp [Capped, HandlerPhase.delay], by simp⟩
  | notClaimed hj => exact ⟨by simp [Capped, HandlerPhase.delay], by simp⟩
  | claimThrew hr => exact ⟨capped_backoff, by simp⟩
  | read => exact ⟨capped_go.2 (by simp [HandlerPhase.delay]), by simp⟩
  | processed => exact ⟨capped_go.2 fun d => delay_outcomeOf, by simp⟩
  | recorded hj =>
    refine ⟨capped_go.2 fun d h => hd d ?_, by simp⟩
    rwa [delay_afterRecord] at h
  | recordThrew hj => exact ⟨capped_backoff, by simp⟩
  | @publishedRetry delayMs _ =>
    have hle := hd delayMs rfl
    exact ⟨capped_go.2 (by simp [HandlerPhase.delay]), by simpa using hle⟩
  | @retryThrew delayMs b =>
    have hle := hd delayMs rfl
    refine ⟨capped_backoff, fun x hx => ?_⟩
    cases b
    · simp at hx
    · obtain rfl := List.mem_singleton.1 hx
      simpa using hle
  | publishedDeadLetter => exact ⟨capped_go.2 (by simp [HandlerPhase.delay]), by simp⟩
  | deadLetterThrew => exact ⟨capped_backoff, by simp⟩
  | requeued ht => exact ⟨capped_idle rfl, by simp⟩
  | acked => exact ⟨capped_idle rfl, by simp⟩

end Worker

namespace World

variable {s t : World}

/-- No retry is to wait for more than the cap on its delay. -/
structure Capped (s : World) : Prop where
  workers : ∀ w, (s.workers w).Capped
  retry : ∀ x ∈ s.retry, x.2 ≤ s.time + 20000

theorem capped_init : Capped init := ⟨fun _ => Worker.capped_idle rfl, by simp [init]⟩

theorem Capped.handled {db : Db} {w : ℕ} {hd : Handled} (hI : Capped s)
    (hw : hd.worker.Capped) (hr : ∀ x ∈ hd.retry, x.2 ≤ s.time + 20000) :
    Capped (World.handled { s with db } w hd) := by
  refine ⟨?_, List.forall_mem_append.2 ⟨hI.retry, hr⟩⟩
  exact (Function.forall_update_iff s.workers fun _ => Worker.Capped).2
    ⟨hw, fun v _ => hI.workers v⟩

theorem Capped.step {a : WorldAction} (hI : Capped s) (h : s.step a = some t) : Capped t := by
  cases step_cases h with
  | passed =>
    refine ⟨hI.workers, fun x hx => (hI.retry x hx).trans ?_⟩
    simp only
    omega
  | committed => exact ⟨hI.workers, hI.retry⟩
  | dispatched => exact ⟨hI.workers, hI.retry⟩
  | expired hr => exact ⟨hI.workers, fun x hx => hI.retry x (hr ▸ List.mem_cons_of_mem _ hx)⟩
  | @delivered w msg hm hw =>
    refine ⟨(Function.forall_update_iff s.workers fun _ => Worker.Capped).2 ⟨?_, ?_⟩, hI.retry⟩
    · exact Worker.capped_go.2 (by simp [HandlerPhase.delay])
    · exact fun v _ => hI.workers v
  | @worked w a hd hs =>
    obtain ⟨hw, hr⟩ := (hI.workers w).step hs
    exact hI.handled hw hr
  | crashed => exact hI.handled (Worker.capped_idle rfl) (by simp [Worker.crash])

/-! ## The order of the queue -/

/-- The retries that a step enqueues, each with the time it expires. -/
def publishedRetries (s : World) (a : WorldAction) (_ : World) :
    List (JobCreatedMessage × ℕ) :=
  match a with
  | .work w a => ((s.workers w).step s.now s.time s.db.jobs a).elim [] (·.retry)
  | _ => []

def isExpire : WorldAction → Bool
  | .expire => true
  | _ => false

/-- Of the messages that were in the retry queue or came behind, the first `n` have left, each
when it had expired, and the others are there. -/
structure InOrder (s : World) (queue : List (JobCreatedMessage × ℕ)) (n : ℕ) : Prop where
  enough : n ≤ queue.length
  waiting : s.retry = queue.drop n
  expired : ∀ x ∈ queue.take n, x.2 ≤ s.time

theorem retry_of_step {a : WorldAction} (h : s.step a = some t) (ha : isExpire a = false) :
    t.retry = s.retry ++ s.publishedRetries a t := by
  cases step_cases h with
  | expired => simp [isExpire] at ha
  | worked hs => simp [publishedRetries, hs, World.handled]
  | crashed => rfl
  | _ => exact (List.append_nil _).symm

theorem head_of_expire (h : s.step .expire = some t) :
    ∃ x, s.retry = x :: t.retry ∧ x.2 ≤ s.time := by
  cases step_cases h with
  | expired hr ht => exact ⟨_, hr, ht⟩

/-- The retry queue over a run: what was in it, and behind that what the steps published, in order
of their publishing. -/
theorem inOrder_of_exec : ∀ {as : List WorldAction} {s t : World}, exec step s as = some t →
    s.time ≤ t.time ∧ InOrder t (s.retry ++ trace step publishedRetries s as) (as.countP isExpire)
  | [], s, t, h => by
    obtain rfl := Option.some.inj h
    exact ⟨le_rfl, Nat.zero_le _, by simp [trace], by simp⟩
  | a :: as, s, u, h => by
    obtain ⟨t, hst, htu⟩ := exec_cons.1 h
    obtain ⟨hle, ho⟩ := inOrder_of_exec htu
    refine ⟨(time_le_of_step hst).trans hle, ?_⟩
    rw [trace_cons hst]
    by_cases ha : isExpire a = true
    · obtain rfl : a = .expire := by cases a <;> simp_all [isExpire]
      obtain ⟨x, hx, hxt⟩ := head_of_expire hst
      rw [hx, List.countP_cons_of_pos ha]
      -- the head has left first, and the rest of the run goes on behind it
      refine ⟨Nat.succ_le_succ ho.enough, ho.waiting, ?_⟩
      exact List.forall_mem_cons.2 ⟨(hxt.trans (time_le_of_step hst)).trans hle, ho.expired⟩
    · rw [List.countP_cons_of_neg ha, ← List.append_assoc,
        ← retry_of_step hst (Bool.eq_false_iff.2 ha)]
      exact ho

/-- A first part of the queue that has expired can leave at once. -/
theorem expire_all (new : List (JobCreatedMessage × ℕ)) :
    ∀ {left : List (JobCreatedMessage × ℕ)} {s : World}, s.retry = left ++ new →
      (∀ x ∈ left, x.2 ≤ s.time) →
      exec step s (List.replicate left.length .expire)
        = some { s with retry := new, main := s.main ++ left.map (·.1) }
  | [], s, hr, _ => by simp [exec, ← show s.retry = new from hr]
  | (msg, expiresAt) :: left, s, hr, hle => by
    obtain ⟨hx, hle⟩ := List.forall_mem_cons.1 hle
    have hstep : s.step .expire
        = some { s with retry := left ++ new, main := s.main ++ [msg] } := by
      simp only [step, hr, List.cons_append]
      exact if_pos hx
    have hrest := @expire_all new left
      { s with retry := left ++ new, main := s.main ++ [msg] } rfl hle
    rw [List.length_cons, List.replicate_succ, exec_cons]
    exact ⟨_, hstep, by simpa using hrest⟩

/-- The retry queue is served in the order of publishing, and no retry leaves it before its delay
is over. Once 20 seconds have passed, whatever was in it has left or can leave at once, whatever
has been published since. -/
theorem retries_in_time {as bs : List WorldAction} (hs : exec step init as = some s)
    (ht : exec step s bs = some t) :
    InOrder t (s.retry ++ trace step publishedRetries s bs) (bs.countP isExpire)
      ∧ (s.time + 20000 ≤ t.time → ∃ u,
        exec step t (List.replicate (s.retry.length - bs.countP isExpire) .expire) = some u
          ∧ u.main = t.main ++ (s.retry.drop (bs.countP isExpire)).map (·.1)) := by
  have hI : Capped s := exec_inv (fun _ _ _ => Capped.step) capped_init hs
  obtain ⟨-, ho⟩ := inOrder_of_exec ht
  refine ⟨ho, fun hle => ?_⟩
  have hretry := ho.waiting
  rw [List.drop_append] at hretry
  rw [← List.length_drop]
  refine ⟨_, expire_all _ hretry fun x hx => ?_, rfl⟩
  exact (hI.retry x (List.mem_of_mem_drop hx)).trans hle

/-- A job that fails, from its creation to the outcome's write. -/
def failing (k : Uuid) : List WorldAction :=
  [.commit ⟨k, 0, .createJob "email" [("shouldFail", .bool true)]⟩ k,
    .dispatch 0 (.claim {} .ok), .dispatch 0 (.publish .ok),
    .dispatch 0 (.markPublished .ok (.value "")), .deliver 0 ⟨k⟩, .work 0 (.claimJob .ok),
    .work 0 .processJob, .work 0 (.record .ok), .work 0 (.publish true true), .work 0 .ack]

/-- Job 1 fails for the second time just before job 2 does for the first. -/
def blockedRetry : List WorldAction :=
  failing 1 ++ [.pass 2000 0, .expire, .deliver 0 ⟨1⟩, .work 0 (.claimJob .ok),
    .work 0 .processJob, .work 0 (.record .ok), .work 0 (.publish true true), .work 0 .ack]
    ++ failing 2

/-- The retry of job 2 has expired, and waits for that of job 1. -/
theorem retries_in_time_blockedRetry : ∃ s t u, exec step init blockedRetry = some s
    ∧ s.retry = [(⟨1⟩, 6000), (⟨2⟩, 4000)] ∧ exec step s [.pass 3000 0] = some t
    ∧ t.time = 5000 ∧ t.step .expire = none
    ∧ exec step s [.pass 3000 0, .pass 17000 0] = some u ∧ ∃ v,
      exec step u [.expire, .expire] = some v ∧ v.main = u.main ++ [⟨1⟩, ⟨2⟩] :=
  ⟨_, _, _, rfl, by decide, rfl, by decide, rfl, rfl,
    (@retries_in_time _ _ blockedRetry [.pass 3000 0, .pass 17000 0] rfl rfl).2 (by decide)⟩

end World

end DeadLetter
