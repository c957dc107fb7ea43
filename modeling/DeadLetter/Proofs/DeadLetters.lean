import Mathlib.Data.Finset.Card
import DeadLetter.Proofs.World

/-!
# The dead-letter queue

The row of a job and its dead letter are written one after the other, by a worker that redelivers
its message where the second fails. But a redelivered message finds the row in `DEAD_LETTERED`
and is let go. So each transition is a message in the queue, or one a worker is about to publish,
or one lost for good (`balance_step`).
-/

namespace DeadLetter

open Transition

namespace World

variable {s t : World} {w : ℕ} {k : Uuid}

/-- The workers about to publish a dead letter of job `k`. -/
def Publishers (s : World) (k : Uuid) (W : Finset ℕ) : Prop :=
  ∀ w, w ∈ W ↔ s.publishesDeadLetter k w = true

theorem Publishers.of_same {W : Finset ℕ} (hW : s.Publishers k W)
    (h : ∀ v, t.publishesDeadLetter k v = s.publishesDeadLetter k v) : t.Publishers k W :=
  fun v => by rw [h v, hW v]

/-- The publishers after a step that moves worker `w` only. -/
theorem Publishers.move {W : Finset ℕ} (hW : s.Publishers k W)
    (h : ∀ v, v ≠ w → t.publishesDeadLetter k v = s.publishesDeadLetter k v) :
    ∃ W', t.Publishers k W' ∧ W'.card + (s.publishesDeadLetter k w).toNat
      = W.card + (t.publishesDeadLetter k w).toNat := by
  have hw := hW w
  cases ht : t.publishesDeadLetter k w
  · refine ⟨W.erase w, fun v => ?_, ?_⟩
    · by_cases hv : v = w
      · simp [hv, ht]
      · simp [hv, h v hv, hW v]
    · cases hs : s.publishesDeadLetter k w
      · rw [Finset.erase_eq_of_notMem (by simp [hw, hs])]
      · exact Finset.card_erase_add_one (hw.2 hs)
  · refine ⟨insert w W, fun v => ?_, ?_⟩
    · by_cases hv : v = w
      · simp [hv, ht]
      · simp [hv, h v hv, hW v]
    · cases hs : s.publishesDeadLetter k w
      · exact Finset.card_insert_of_notMem (by simp [hw, hs])
      · rw [Finset.insert_eq_of_mem (hw.2 hs)]

def lost (k : Uuid) (s : World) (a : WorldAction) (t : World) : List Uuid :=
  if s.losesDeadLetter k a t then [k] else []

/-- What a step of a handler marks is published, or about to be, or lost. -/
theorem balance_handled {a : HandlerAction} {hd : Handled}
    (hs : (s.workers w).step s.now s.time s.db.jobs a = some hd)
    (h : s.step (.work w a) = some t) :
    deadLetterings (s.shown (.work w a) t) k + (s.publishesDeadLetter k w).toNat
      = hd.dlq.count ⟨k⟩ + (t.publishesDeadLetter k w).toNat
        + (lost k s (.work w a) t).length := by
  obtain ⟨msg, phase, hh, hst⟩ := Worker.handler_of_step hs
  have ht : (t.workers w).handler = hd.worker.handler := by
    obtain ⟨hd', hs', rfl⟩ := Option.map_eq_some_iff.1 h
    obtain rfl := Option.some.inj (hs.symm.trans hs')
    simp [handled]
  simp only [publishesDeadLetter, hh, ht, lost]
  cases hst with
  | @recorded job row outcome hj =>
    have hc : Call.succeeds s.db.jobs ⟨msg.jobId, s.now, outcome.op⟩ = true := by
      rw [Call.succeeds, hj]
      rfl
    have hk : msg = ⟨k⟩ ↔ msg.jobId = k := by cases msg; simp
    by_cases hm : msg.jobId = k <;> cases outcome <;>
      simp_all [shown, Worker.call, deadLetterings, marksDeadLettered, Outcome.op,
        Call.deadLettering, losesDeadLetter, Worker.go, Worker.afterRecord, Reply.executed,
        HandlerAction.replied]
  | @recordThrew job outcome reply hj =>
    cases reply with
    | ok =>
      have hc : Call.succeeds s.db.jobs ⟨msg.jobId, s.now, outcome.op⟩ = false := by
        rw [Call.succeeds, hj rfl]
        rfl
      simp [hh, shown, Worker.call, deadLetterings, marksDeadLettered, losesDeadLetter,
        Worker.backoffBeforeRequeue, hc, Reply.executed]
    | failed =>
      simp [hh, shown, Worker.call, deadLetterings, losesDeadLetter, Worker.backoffBeforeRequeue,
        Reply.executed]
    | lost =>
      -- every mark that takes effect is lost
      by_cases hm : marksDeadLettered k ⟨some w, ⟨msg.jobId, s.now, outcome.op⟩,
          Call.succeeds s.db.jobs ⟨msg.jobId, s.now, outcome.op⟩, false⟩ = true <;>
        simp [hh, shown, Worker.call, deadLetterings, losesDeadLetter,
          Worker.backoffBeforeRequeue, Reply.executed, HandlerAction.replied, hm]
  | publishedDeadLetter =>
    by_cases hm : msg = ⟨k⟩ <;>
      simp [hh, shown, Worker.call, deadLetterings, losesDeadLetter, publishesDeadLetter,
        Worker.go, hm]
  | @deadLetterThrew b =>
    by_cases hm : msg = ⟨k⟩ <;> cases b <;>
      simp [hh, shown, Worker.call, deadLetterings, losesDeadLetter, publishesDeadLetter,
        Worker.backoffBeforeRequeue, hm]
  | _ =>
    simp [hh, shown, Worker.call, deadLetterings, marksDeadLettered, Call.deadLettering,
      losesDeadLetter, publishesDeadLetter, Worker.go, Worker.backoffBeforeRequeue]

theorem handled_dlq (s : World) (w : ℕ) (hd : Handled) :
    (s.handled w hd).dlq = s.dlq ++ hd.dlq :=
  rfl

/-- Each transition of job `k` is a message of the queue, or one a worker is about to publish, or
one lost: what a step adds to one side it adds to the other. -/
theorem balance_step {a : WorldAction} (h : s.step a = some t) {W : Finset ℕ}
    (hW : s.Publishers k W) : ∃ W', t.Publishers k W'
      ∧ deadLetterings (s.shown a t) k + (s.dlq.count ⟨k⟩ + W.card)
        = t.dlq.count ⟨k⟩ + W'.card + (lost k s a t).length := by
  have hother : ∀ v, mover a ≠ some v →
      t.publishesDeadLetter k v = s.publishesDeadLetter k v := fun v hv => by
    rw [publishesDeadLetter, workers_of_step h hv, publishesDeadLetter]
  cases step_cases h with
  | @committed c eventId db ha hc =>
    refine ⟨W, hW.of_same fun v => hother v (by simp [mover]), ?_⟩
    have hd : c.deadLettering = none := by
      unfold JobOp.isApi at ha
      unfold Call.deadLettering
      split at ha <;> simp_all
    simp [deadLetterings, shown, marksDeadLettered, hd, lost, losesDeadLetter]
  | @delivered w msg hm hw =>
    refine ⟨W, hW.of_same fun v => ?_, by simp [deadLetterings, shown, lost, losesDeadLetter]⟩
    by_cases hv : v = w
    · simp [publishesDeadLetter, hv, hw, Worker.go]
    · exact hother v fun he => hv (Option.some.inj he).symm
  | @worked w a hd hs =>
    obtain ⟨W', hW', hc⟩ := hW.move fun v hv => hother v fun he => hv (Option.some.inj he).symm
    have hb := balance_handled (k := k) hs h
    refine ⟨W', hW', ?_⟩
    simp only [handled_dlq, List.count_append]
    omega
  | @crashed w =>
    obtain ⟨W', hW', hc⟩ := hW.move fun v hv => hother v fun he => hv (Option.some.inj he).symm
    refine ⟨W', hW', ?_⟩
    have ht : publishesDeadLetter (s.handled w (s.workers w).crash) k w = false := by
      simp [publishesDeadLetter, handled, Worker.crash]
    rw [ht] at hc
    cases hp : s.publishesDeadLetter k w <;>
      simp_all [deadLetterings, shown, lost, losesDeadLetter, handled, Worker.crash]
    omega
  | _ =>
    exact ⟨W, hW.of_same fun v => hother v (by simp [mover]),
      by simp [deadLetterings, shown, lost, losesDeadLetter]⟩

theorem balance_exec : ∀ {as : List WorldAction} {s t : World} {W : Finset ℕ},
    exec step s as = some t → s.Publishers k W → ∃ W', t.Publishers k W'
      ∧ deadLetterings (trace step shown s as) k + (s.dlq.count ⟨k⟩ + W.card)
        = t.dlq.count ⟨k⟩ + W'.card + (trace step (lost k) s as).length
  | [], s, t, W, h, hW => by
    simp only [exec, Option.some.injEq] at h
    exact ⟨W, h ▸ hW, by simp [trace, deadLetterings, h]⟩
  | a :: as, s, t, W, h, hW => by
    obtain ⟨u, hu, ht⟩ := exec_cons.1 h
    obtain ⟨W₁, hW₁, h₁⟩ := balance_step hu hW
    obtain ⟨W₂, hW₂, h₂⟩ := balance_exec ht hW₁
    refine ⟨W₂, hW₂, ?_⟩
    simp only [trace, hu, deadLetterings, List.countP_append, List.length_append] at h₁ h₂ ⊢
    omega

/-- Where job `k` is at rest, the queue holds its transitions but the lost ones. -/
theorem dlq_of_quiet {as : List WorldAction} (h : exec step init as = some s) (hq : s.Quiet k) :
    deadLetterings (trace step shown init as) k
      = s.dlq.count ⟨k⟩ + (trace step (lost k) init as).length := by
  have hinit : init.Publishers k ∅ := fun w => by simp [publishesDeadLetter, init]
  obtain ⟨W, hW, hb⟩ := balance_exec h hinit
  have hnone : W = ∅ := by
    refine Finset.eq_empty_of_forall_notMem fun w hw => ?_
    have := (hW w).1 hw
    simp only [publishesDeadLetter, decide_eq_true_eq] at this
    exact hq.handler w _ this rfl
  rw [hnone] at hb
  simpa [init] using hb

/-- In every state in which job `k` is at rest, the dead-letter queue has a message for each of
its transitions to `DEAD_LETTERED`, just where the run up to there lost none. -/
theorem dlq_complete_iff {as : List WorldAction} (h : exec step init as = some s)
    (hq : s.Quiet k) : deadLetterings (trace step shown init as) k ≤ s.dlq.count ⟨k⟩
      ↔ Steps step (Published k) init as := by
  have hnil : trace step (lost k) init as = [] ↔ Steps step (Published k) init as := by
    rw [trace_eq_nil_iff]
    constructor <;> refine Steps.mono fun s a t h => ?_
    · simpa [lost, Published] using h
    · simpa [lost, Published] using h
  rw [dlq_of_quiet h hq, ← hnil, ← List.length_eq_zero_iff]
  omega

theorem quiet_of_idle (hm : s.main = []) (hr : s.retry = [])
    (hw : ∀ w, (s.workers w).handler = none) : s.Quiet k :=
  ⟨by simp [hm], by simp [hr], by simp [hw]⟩

/-- A job that is not to be retried, up to its dead letter. -/
def rejectedJob : List WorldAction :=
  [.commit ⟨1, 0, .createJob "email" [("shouldFailPermanently", .bool true)]⟩ 7,
    .dispatch 0 (.claim {} .ok), .dispatch 0 (.publish .ok),
    .dispatch 0 (.markPublished .ok (.value "")), .deliver 0 ⟨1⟩, .work 0 (.claimJob .ok),
    .work 0 .processJob, .work 0 (.record .ok)]

def deadLetterTaken : List WorldAction :=
  rejectedJob ++ [.work 0 (.publish true true), .work 0 .ack]

/-- The publish fails; the message is redelivered, and finds the job in `DEAD_LETTERED`. -/
def deadLetterRefused : List WorldAction :=
  rejectedJob ++ [.work 0 (.publish false false), .pass 1000 0, .work 0 .requeue, .deliver 0 ⟨1⟩,
    .work 0 (.claimJob .ok), .work 0 .getJobById, .work 0 .ack]

theorem quiet_deadLetterTaken : ∃ s, exec step init deadLetterTaken = some s ∧ s.Quiet 1 := by
  have hend : (exec step init deadLetterTaken).map (fun s => (s.main, s.retry,
      (s.workers 0).handler)) = some ([], [], none) := rfl
  obtain ⟨s, hs, hend⟩ := Option.map_eq_some_iff.1 hend
  simp only [Prod.mk.injEq] at hend
  obtain ⟨hm, hr, h0⟩ := hend
  exact ⟨s, hs, quiet_of_idle hm hr (idle_of_exec hs (by decide) h0)⟩

theorem dlq_complete_deadLetterTaken : ∃ s, exec step init deadLetterTaken = some s ∧ s.Quiet 1
    ∧ (deadLetterings (trace step shown init deadLetterTaken) 1 ≤ s.dlq.count ⟨1⟩
      ↔ Steps step (Published 1) init deadLetterTaken)
    ∧ Steps step (Published 1) init deadLetterTaken := by
  obtain ⟨s, hs, hq⟩ := quiet_deadLetterTaken
  exact ⟨s, hs, hq, dlq_complete_iff hs hq, by decide⟩

theorem deadLetterRefused_incomplete : ∃ s, exec step init deadLetterRefused = some s
    ∧ s.Quiet 1 ∧ ¬ deadLetterings (trace step shown init deadLetterRefused) 1
      ≤ s.dlq.count ⟨1⟩ := by
  have hend : (exec step init deadLetterRefused).map (fun s => (s.main, s.retry, s.dlq,
      (s.workers 0).handler)) = some ([], [], [], none) := rfl
  obtain ⟨s, hs, hend⟩ := Option.map_eq_some_iff.1 hend
  simp only [Prod.mk.injEq] at hend
  obtain ⟨hm, hr, hd, h0⟩ := hend
  have h1 : deadLetterings (trace step shown init deadLetterRefused) 1 = 1 := by decide
  exact ⟨s, hs, quiet_of_idle hm hr (idle_of_exec hs (by decide) h0), by simp [h1, hd]⟩

end World

end DeadLetter
