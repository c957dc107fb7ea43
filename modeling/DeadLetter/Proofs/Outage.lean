import DeadLetter.Pacing
import DeadLetter.Proofs.World

/-!
# A worker in an outage

While no claim returns, a worker hands its messages back ever more slowly: `dbErrorCount` is one
more for each that it handed back since a claim last returned, and the wait before the next is
the delay for that many. So no outage, however many messages there are, makes a worker loop.
-/

namespace DeadLetter

open Transition Pacing

/-- The wait before a message is handed back, `n` having been so since a claim last returned. -/
def requeueDelayMs : ℕ → ℕ := doubling 1000 30000

theorem computeDbErrorBackoffMs_succ (n : ℕ) :
    computeDbErrorBackoffMs (n + 1) = requeueDelayMs n := by
  unfold computeDbErrorBackoffMs requeueDelayMs doubling
  rw [pow_succ, ← mul_assoc, Nat.mul_div_cancel _ (by omega)]

namespace World

variable {l : List Event} {s t : World} {w : ℕ}

/-- When worker `w` has a claim returned or starts anew, and when it hands a message back. -/
def paces (w : ℕ) (s : World) (a : WorldAction) (_ : World) : List Event :=
  match a with
  | .work v (.claimJob .ok) | .crash v => if v = w then [.reset s.time] else []
  | .work v .requeue => if v = w then [.attempt s.time] else []
  | _ => []

/-- A worker counts the messages it has handed back, and one more while it waits. -/
def Counts (k : Streak) (wk : Worker) : Prop :=
  match wk.handler with
  | some ⟨_, .backoff wakeAt⟩ =>
    wk.dbErrorCount = k.count + 1 ∧ k.last + requeueDelayMs k.count ≤ wakeAt
  | _ => wk.dbErrorCount = k.count

structure Throttled (l : List Event) (s : World) (w : ℕ) : Prop where
  spaced : Spaced requeueDelayMs l
  last : (streak l).last ≤ s.time
  counts : Counts (streak l) (s.workers w)

theorem counts_backoff {k : Streak} {wk : Worker} {msg : JobCreatedMessage} {time : ℕ}
    (hc : wk.dbErrorCount = k.count) (hl : k.last ≤ time) :
    Counts k (wk.backoffBeforeRequeue time msg) := by
  show wk.dbErrorCount + 1 = k.count + 1
    ∧ k.last + requeueDelayMs k.count ≤ time + computeDbErrorBackoffMs (wk.dbErrorCount + 1)
  rw [hc, computeDbErrorBackoffMs_succ]
  omega

theorem time_le_of_step {a : WorldAction} (h : s.step a = some t) : s.time ≤ t.time := by
  cases step_cases h with
  | passed => exact Nat.le_add_right _ _
  | _ => exact le_rfl

/-- A step that hands no message back, and after which none has newly been claimed. -/
theorem Throttled.of_silent (hI : Throttled l s w) (ht : s.time ≤ t.time)
    (hc : Counts (streak l) (t.workers w)) : Throttled (l ++ []) t w := by
  rw [List.append_nil]
  exact ⟨hI.spaced, hI.last.trans ht, hc⟩

/-- A worker that has a claim returned, or starts anew, counts from there. -/
theorem Throttled.reset {ev : List Event} (hI : Throttled l s w) (hev : ev = [.reset s.time])
    (ht : t.time = s.time) (hc : Counts ⟨s.time, s.time, 0⟩ (t.workers w)) :
    Throttled (l ++ ev) t w := by
  subst hev
  refine ⟨hI.spaced.append fun _ h => by simp at h, ?_, ?_⟩ <;> rw [streak_append]
  · exact ht.ge
  · exact hc

theorem Throttled.work {a : HandlerAction} {hd : Handled} (hI : Throttled l s w)
    (hs : (s.workers w).step s.now s.time s.db.jobs a = some hd) (ht : t.time = s.time)
    (hw : t.workers w = hd.worker) : Throttled (l ++ paces w s (.work w a) t) t w := by
  obtain ⟨msg, phase, hh, hst⟩ := Worker.handler_of_step hs
  have hc := hI.counts
  unfold Counts at hc
  rw [hh] at hc
  have hback : (s.workers w).dbErrorCount = (streak l).count →
      hd.worker = (s.workers w).backoffBeforeRequeue s.time msg → Throttled (l ++ []) t w :=
    fun hc hb => hI.of_silent ht.ge (by rw [hw, hb]; exact counts_backoff hc hI.last)
  have hgo : hd.worker.dbErrorCount = (streak l).count →
      (∀ m wakeAt, hd.worker.handler ≠ some ⟨m, .backoff wakeAt⟩) → Throttled (l ++ []) t w := by
    intro hc hn
    refine hI.of_silent ht.ge ?_
    unfold Counts
    rw [hw]
    split
    · rename_i h
      exact absurd h (hn _ _)
    · exact hc
  cases hst with
  | claimed => exact hI.reset (if_pos rfl) ht (hw ▸ rfl)
  | notClaimed => exact hI.reset (if_pos rfl) ht (hw ▸ rfl)
  | @claimThrew reply hr =>
    cases reply with
    | ok => exact absurd rfl hr
    | _ => exact hback hc rfl
  | recordThrew => exact hback hc rfl
  | retryThrew => exact hback hc rfl
  | deadLetterThrew => exact hback hc rfl
  | @requeued wakeAt hle =>
    obtain ⟨hcount, hwake⟩ := hc
    have hp : paces w s (.work w .requeue) t = [.attempt s.time] := if_pos rfl
    rw [hp]
    refine ⟨hI.spaced.append fun u hu => ?_, ?_, ?_⟩
    · rw [← Event.attempt.inj hu]
      omega
    · rw [streak_append]
      exact ht.ge
    · rw [streak_append, hw]
      exact hcount
  | @recorded job row outcome =>
    exact hgo hc (by cases outcome <;> simp [Worker.go, Worker.afterRecord])
  | _ => exact hgo hc (by simp [Worker.go])

theorem Throttled.step {a : WorldAction} (hI : Throttled l s w) (h : s.step a = some t) :
    Throttled (l ++ paces w s a t) t w := by
  by_cases hw : mover a = some w
  swap
  · have hn : paces w s a t = [] := by
      unfold paces
      split <;> first | rfl | exact if_neg fun hv => hw (by rw [← hv]; rfl)
    rw [hn]
    exact hI.of_silent (time_le_of_step h) (workers_of_step h hw ▸ hI.counts)
  cases step_cases h with
  | @delivered v msg hm hn =>
    obtain rfl := Option.some.inj hw
    refine hI.of_silent le_rfl ?_
    have hc := hI.counts
    unfold Counts at hc
    rw [hn] at hc
    simp only [Function.update_self]
    exact hc
  | worked hs =>
    obtain rfl := Option.some.inj hw
    exact hI.work hs rfl (Function.update_self ..)
  | crashed =>
    obtain rfl := Option.some.inj hw
    refine hI.reset (if_pos rfl) rfl ?_
    simp only [handled, Function.update_self]
    rfl
  | _ => simp [mover] at hw

/-- Each message that a worker, with its one consumer, hands back comes its delay after the last, or
after a claim last returned; so the `n`-th comes no sooner than all their delays after that claim,
and from the fifth on there is one in thirty seconds at most. -/
theorem outage_throttled {as : List WorldAction} (h : exec step init as = some s) (w : ℕ) :
    Spaced requeueDelayMs (trace step (paces w) init as)
      ∧ (∀ l₁ time l₂, trace step (paces w) init as = l₁ ++ .attempt time :: l₂ →
        (streak l₁).start + ∑ i ∈ Finset.range ((streak l₁).count + 1), requeueDelayMs i ≤ time)
      ∧ (streak (trace step (paces w) init as)).count
        ≤ 5 + (s.time - (streak (trace step (paces w) init as)).start - 31000) / 30000 := by
  have hinit : Throttled [] init w := ⟨spaced_nil, Nat.zero_le _, rfl⟩
  have hstep : ∀ l s a t, Throttled l s w → World.step s a = some t →
      Throttled (l ++ paces w s a t) t w := fun _ _ _ _ hI h => hI.step h
  have hI := exec_trace_inv (I := fun l s => Throttled l s w) hstep hinit h
  refine ⟨hI.spaced, fun l₁ time l₂ hl => hI.spaced.attempt_le hl, ?_⟩
  have hcap : ∀ n, 5 ≤ n → requeueDelayMs n = 30000 := fun n hn =>
    doubling_of_le (m := 5) (by decide) hn
  have hsum : ∑ i ∈ Finset.range 5, requeueDelayMs i = 31000 := by decide
  have hcount := hI.spaced.count_le hcap (by omega)
  rw [hsum] at hcount
  exact hcount.trans (Nat.add_le_add_left (Nat.div_le_div_right (Nat.sub_le_sub_right
    (Nat.sub_le_sub_right hI.last _) _)) 5)

/-- The database fails two claims, then the mark of a job that a worker has claimed. -/
def threeFailures : List WorldAction :=
  [.commit ⟨1, 0, .createJob "email" []⟩ 7, .dispatch 0 (.claim {} .ok),
    .dispatch 0 (.publish .ok), .deliver 0 ⟨1⟩, .work 0 (.claimJob .failed), .pass 1000 0,
    .work 0 .requeue, .deliver 0 ⟨1⟩, .work 0 (.claimJob .failed), .pass 2500 0, .work 0 .requeue,
    .deliver 0 ⟨1⟩, .work 0 (.claimJob .ok), .work 0 .processJob, .work 0 (.record .failed),
    .pass 1000 0, .work 0 .requeue]

theorem outage_throttled_threeFailures : ∃ s, exec step init threeFailures = some s
    ∧ trace step (paces 0) init threeFailures
      = [.attempt 1000, .attempt 3500, .reset 3500, .attempt 4500]
    ∧ Spaced requeueDelayMs (trace step (paces 0) init threeFailures) :=
  ⟨_, rfl, by decide, (@outage_throttled _ threeFailures rfl 0).1⟩

end World

end DeadLetter
