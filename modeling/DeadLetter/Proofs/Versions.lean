import Mathlib.Data.Prod.Lex
import DeadLetter.Proofs.Stats

/-!
# The versions of a row

Each statement that changes a row takes it to a version after all that it has had: a replay starts
a cycle, a claim an attempt, and an outcome ends one. So a row never comes back to what it was, and
one that a reader finds at the version it knew has not been written in between.
-/

namespace DeadLetter

open Transition

/-- The cycle, the attempt, and whether the attempt is over. -/
def Job.version (j : Job) : ℕ ×ₗ ℕ ×ₗ ℕ :=
  toLex (j.replayCount, toLex (j.attemptCount,
    if j.status = .queued ∨ j.status = .processing then 0 else 1))

/-- `j` is what may have become of row `i` in some writes, at least one. -/
structure Job.Later (i j : Job) : Prop where
  id : j.id = i.id
  type : j.type = i.type
  payload : j.payload = i.payload
  createdAt : j.createdAt = i.createdAt
  maxAttempts : j.maxAttempts = i.maxAttempts
  totalAttempts : i.totalAttemptCount ≤ j.totalAttemptCount
  replays : i.replayCount ≤ j.replayCount
  version : i.version < j.version
  /-- A completed job is completed for good. -/
  notCompleted : i.status ≠ .completed
  /-- A dead-lettered one is replayed, and a queued one is new or replayed. -/
  replayed : i.status = .deadLettered ∨ j.status = .queued → i.replayCount < j.replayCount
  /-- What is recorded of a dead-lettering stays until the next. -/
  deadLetteredAt : i.lastDeadLetteredAt ≠ none → j.lastDeadLetteredAt ≠ none

theorem Writes.kept {c : Call} {i j : Job} (h : Writes c (some i) j) : j.id = i.id
    ∧ j.type = i.type ∧ j.payload = i.payload ∧ j.createdAt = i.createdAt
    ∧ (i.lastDeadLetteredAt ≠ none → j.lastDeadLetteredAt ≠ none) := by
  rcases c with ⟨k, now, op⟩
  cases h with
  | update hu =>
    cases op <;> simp only [JobOp.update, Option.some.injEq, reduceCtorEq] at hu <;> subst hu <;>
      refine ⟨rfl, rfl, rfl, rfl, ?_⟩ <;>
      simp [claimJobUpdate, markCompletedUpdate, markRetryingUpdate, markDeadLetteredUpdate,
        claimReplayUpdate]

/-- The outcome of an attempt is written to a row in `PROCESSING`, and takes it out of that. -/
theorem Writes.of_outcome {c : Call} {i j : Job} (h : Writes c (some i) j)
    (hr : c.op ≠ .claimReplay) (hc : c.op ≠ .claimJob) :
    i.status = .processing ∧ j.status ≠ .queued ∧ j.status ≠ .processing := by
  have hst := h.status
  rcases c with ⟨k, now, op⟩
  cases h with
  | update hu hcond =>
    cases op <;> simp only [JobOp.update, Option.some.injEq, reduceCtorEq] at hu <;> subst hu
    · exact absurd rfl hc
    · exact ⟨of_decide_eq_true hcond, by rw [hst]; simp [JobOp.status]⟩
    · exact ⟨of_decide_eq_true hcond, by rw [hst]; simp [JobOp.status]⟩
    · exact ⟨of_decide_eq_true hcond, by rw [hst]; simp [JobOp.status]⟩
    · exact absurd rfl hr

theorem Writes.version_lt {c : Call} {i j : Job} (h : Writes c (some i) j) :
    i.version < j.version := by
  have hrep := h.replayCount
  have hatt := h.attemptCount
  unfold Job.version
  rw [Prod.Lex.toLex_lt_toLex, Prod.Lex.toLex_lt_toLex]
  simp only
  by_cases hr : c.op = .claimReplay
  · rw [if_pos hr] at hrep
    omega
  · rw [if_neg hr] at hrep hatt
    refine .inr ⟨by omega, ?_⟩
    by_cases hc : c.op = .claimJob
    · rw [if_pos hc] at hatt
      omega
    · rw [if_neg hc] at hatt
      obtain ⟨hi, hq, hp⟩ := h.of_outcome hr hc
      refine .inr ⟨hatt.symm, ?_⟩
      rw [if_pos (.inr hi), if_neg (not_or.2 ⟨hq, hp⟩)]
      omega

theorem Writes.later {c : Call} {i j : Job} (h : Writes c (some i) j) : i.Later j := by
  obtain ⟨hid, htype, hpayload, hcreated, hdead⟩ := h.kept
  have hrep := h.replayCount
  have htotal := h.totalAttemptCount
  refine ⟨hid, htype, hpayload, hcreated, h.maxAttempts, by omega, by omega, h.version_lt,
    h.not_completed, fun hor => ?_, hdead⟩
  have hr : c.op = .claimReplay := by
    rcases hor with hd | hq
    · exact h.deadLettered_iff.1 hd
    · by_contra hr
      by_cases hc : c.op = .claimJob
      · rw [h.status, hc] at hq
        exact absurd hq (by simp [JobOp.status])
      · exact (h.of_outcome hr hc).2.1 hq
  rw [if_pos hr] at hrep
  omega

theorem Job.Later.trans {i j k : Job} (h : i.Later j) (h' : j.Later k) : i.Later k where
  id := h'.id.trans h.id
  type := h'.type.trans h.type
  payload := h'.payload.trans h.payload
  createdAt := h'.createdAt.trans h.createdAt
  maxAttempts := h'.maxAttempts.trans h.maxAttempts
  totalAttempts := h.totalAttempts.trans h'.totalAttempts
  replays := h.replays.trans h'.replays
  version := h.version.trans h'.version
  notCompleted := h.notCompleted
  replayed := by
    rintro (hd | hq)
    · exact (h.replayed (.inl hd)).trans_le h'.replays
    · exact h.replays.trans_lt (h'.replayed (.inr hq))
  deadLetteredAt := h'.deadLetteredAt ∘ h.deadLetteredAt

namespace World

variable {s t : World}

/-- Row `k` is as it was and no call has written it, or it is a later version. -/
def MovesOn (l : List Entry) (s t : World) (k : Uuid) : Prop :=
  ∀ i, s.db.jobs.get k = some i → ∃ j, t.db.jobs.get k = some j
    ∧ (j = i ∧ (∀ e ∈ l, e.wrote = true → e.call.id ≠ k)
      ∨ i.Later j ∧ ∃ e ∈ l, e.wrote = true ∧ e.call.id = k)

theorem movesOn_step {a : WorldAction} (h : s.step a = some t) (k : Uuid) :
    MovesOn (s.shown a t) s t k := by
  intro i hi
  rcases row_cases h k with ⟨ht, hn⟩ | ⟨e, j, he, hw, hk, hj, hwr⟩
  · exact ⟨i, ht.trans hi, .inl ⟨rfl, hn⟩⟩
  · rw [hi] at hwr
    exact ⟨j, hj, .inr ⟨hwr.later, e, by simp [he], hw, hk⟩⟩

theorem MovesOn.trans {l m : List Entry} {u : World} {k : Uuid} (h : MovesOn l s t k)
    (h' : MovesOn m t u k) : MovesOn (l ++ m) s u k := by
  intro i hi
  obtain ⟨j, hj, hij⟩ := h i hi
  obtain ⟨j', hj', hjj'⟩ := h' j hj
  refine ⟨j', hj', ?_⟩
  rcases hij with ⟨rfl, hn⟩ | ⟨hl, e, he, hw⟩ <;> rcases hjj' with ⟨rfl, hn'⟩ | ⟨hl', e', he', hw'⟩
  · exact .inl ⟨rfl, fun e he => (List.mem_append.1 he).elim (hn e) (hn' e)⟩
  · exact .inr ⟨hl', e', List.mem_append_right _ he', hw'⟩
  · exact .inr ⟨hl, e, List.mem_append_left _ he, hw⟩
  · exact .inr ⟨hl.trans hl', e, List.mem_append_left _ he, hw⟩

theorem movesOn_exec : ∀ {as : List WorldAction} {s t : World}, exec step s as = some t →
    ∀ k, MovesOn (trace step shown s as) s t k
  | [], s, t, h, k => fun i hi => by
    obtain rfl := Option.some.inj h
    exact ⟨i, hi, .inl ⟨rfl, by simp [trace]⟩⟩
  | a :: as, s, t, h, k => by
    obtain ⟨u, hu, ht⟩ := exec_cons.1 h
    rw [trace_cons hu]
    exact (movesOn_step hu k).trans (movesOn_exec ht k)

/-- Over any stretch of a run each row is as it was, not having been written, or has come to a
later version; so one that is at the version it was at has not been written. -/
theorem rows_move_on {as : List WorldAction} (h : exec step s as = some t) (k : Uuid) :
    MovesOn (trace step shown s as) s t k
      ∧ ∀ i j, s.db.jobs.get k = some i → t.db.jobs.get k = some j → j.version = i.version →
        j = i ∧ ∀ e ∈ trace step shown s as, e.wrote = true → e.call.id ≠ k := by
  have hM := movesOn_exec h k
  refine ⟨hM, fun i j hi hj hv => ?_⟩
  obtain ⟨j', hj', hor⟩ := hM i hi
  obtain rfl : j = j' := Option.some.inj (hj.symm.trans hj')
  rcases hor with hsame | ⟨hl, -⟩
  · exact hsame
  · exact absurd (hv ▸ hl.version) (lt_irrefl _)

def claimedJob : List WorldAction :=
  [.commit ⟨1, 0, .createJob "email" [("shouldFailPermanently", .bool true)]⟩ 7,
    .dispatch 0 (.claim {} .ok), .dispatch 0 (.publish .ok), .deliver 0 ⟨1⟩,
    .work 0 (.claimJob .ok)]

def rejectedAndReplayed : List WorldAction :=
  [.work 0 .processJob, .work 0 (.record .ok), .work 0 (.publish true true), .work 0 .ack,
    .commit ⟨1, 5, .claimReplay⟩ 8]

theorem rows_move_on_replayed : ∃ s t, exec step init claimedJob = some s
    ∧ exec step s rejectedAndReplayed = some t
    ∧ (s.db.jobs.get 1).map (·.version) = some (toLex (0, toLex (1, 0)))
    ∧ (t.db.jobs.get 1).map (·.version) = some (toLex (1, toLex (0, 0)))
    ∧ MovesOn (trace step shown s rejectedAndReplayed) s t 1 :=
  ⟨_, _, rfl, rfl, by decide, by decide, (@rows_move_on _ _ rejectedAndReplayed rfl 1).1⟩

end World

end DeadLetter
