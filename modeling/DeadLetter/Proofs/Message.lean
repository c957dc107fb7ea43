import DeadLetter.Message
import DeadLetter.Proofs.Handling

/-!
# A message keeps to its job

Whatever string a `jobId` is, the handler reads from the message what was published, and what it
publishes for it is the same message again. So however often a job is retried, its messages, and
its dead letters, are all the one that was published first.
-/

namespace DeadLetter

open Transition

variable {pg : Pg} {jobId : CodeUnits}

theorem parse_messageBody (h : ∀ u ∈ jobId, u < 0x10000) :
    Json.parse (utf8Decode (messageBody (some (.string jobId))))
      = some (.object [(jobIdKey, .string jobId)]) := by
  have hv : Json.Valid (.object [(jobIdKey, .string jobId)]) := ⟨by decide, h, trivial⟩
  exact Json.parse_decode_encode hv

/-- What was published is what is read. -/
theorem receive_messageBody (h : ∀ u ∈ jobId, u < 0x10000) :
    Delivery.receive (messageBody (some (.string jobId)))
      = ({ jobId := some (.string jobId), phase := .claimJob }, []) := by
  rw [Delivery.receive, parse_messageBody h]
  rfl

theorem poison_messageBody (h : ∀ u ∈ jobId, u < 0x10000) :
    Poison pg (messageBody (some (.string jobId))) ↔ 0 ∈ jobId := by
  have hget : (Json.object [(jobIdKey, .string jobId)]).get jobIdKey = some (.string jobId) := rfl
  unfold Poison
  rw [parse_messageBody h]
  constructor
  · rintro (hnull | ⟨content, v, hp, hv, -, hnul⟩)
    · cases hnull
    · obtain rfl := Option.some.inj hp
      obtain rfl := Option.some.inj (hget.symm.trans hv)
      exact hnul jobId (pg.text_string jobId)
  · intro hnul
    refine .inr ⟨_, _, rfl, hget, by simp, fun text ht => ?_⟩
    rwa [← Option.some.inj ((pg.text_string jobId).symm.trans ht)]

namespace Handling

theorem jobId_of_step {s t : Handling} {a : HandlingAction} (h : s.step pg a = some t) :
    t.delivery.jobId = s.delivery.jobId := by
  rcases ha : a.own
  · rw [(step_others h ha).1]
  · obtain ⟨b, -, hb, -⟩ := step_own h ha
    rcases Delivery.step_cases hb with ⟨-, -, -, ht, -⟩ | ⟨phase, ht, -⟩
    · rw [ht]
    · rw [ht]
      rfl

theorem start_jobId {v : Option Json} {body : List UInt8}
    (h : Delivery.receive body = ({ jobId := v, phase := .claimJob }, [])) (jobs : Jobs) :
    (start body jobs).delivery.jobId = v := by
  rw [start, h]

theorem sent_eq {s t : Handling} {a : HandlingAction} {m : Destination × List UInt8}
    (h : m ∈ s.sent pg a t) : m.2 = messageBody s.delivery.jobId := by
  obtain ⟨e, -, he⟩ := List.mem_filterMap.1 h
  rcases e with _ | ⟨destination, ok⟩ | _ | _ <;> simp only [Option.some.injEq, reduceCtorEq] at he
  rw [← he]

/-- Every message that a handler publishes has the `jobId` that it took from its own. -/
theorem sent_of_run {s : Handling} {as : List HandlingAction} :
    ∀ m ∈ trace (step pg) (sent pg) s as, m.2 = messageBody s.delivery.jobId := by
  have hstep : ∀ (u : Handling) a v, u.delivery.jobId = s.delivery.jobId → u.step pg a = some v →
      v.delivery.jobId = s.delivery.jobId
        ∧ ∀ m ∈ u.sent pg a v, m.2 = messageBody s.delivery.jobId := fun u a v hI h =>
    ⟨(jobId_of_step h).trans hI, fun m hm => hI ▸ sent_eq hm⟩
  exact forall_mem_trace hstep rfl

/-- A claim and a mark change the row that the parameter names, if any. -/
theorem get_claimJob {now : ℤ} {jobs : Jobs} {v : Option Json} {k : Uuid}
    (hk : (pg.claimJob now jobs v).1.get k ≠ jobs.get k) : pg.param v = .uuid k := by
  unfold Pg.claimJob at hk
  rcases hp : pg.param v with _ | code | id <;> rw [hp] at hk
  · exact absurd rfl hk
  · exact absurd rfl hk
  · by_contra hne
    refine hk ((JobUpdate.get_run _ jobs id k).trans (if_neg fun h => hne ?_))
    rw [h]

theorem get_mark {now : ℤ} {jobs : Jobs} {v : Option Json} {op : JobOp} {k : Uuid}
    (hk : (pg.mark now jobs v op).1.get k ≠ jobs.get k) : pg.param v = .uuid k := by
  unfold Pg.mark at hk
  rcases hp : pg.param v with _ | code | id <;> rw [hp] at hk
  · exact absurd rfl hk
  · exact absurd rfl hk
  · by_contra hne
    rcases hr : (Call.run jobs ⟨id, now, op⟩).2 with _ | j
    · exact hk (by rw [Call.run_of_none hr])
    · obtain ⟨-, hget⟩ := Call.writes hr
      refine hk ((hget k).trans (if_neg fun h => hne ?_))
      rw [h]

/-- The handler's own steps change the row that the `jobId` names, if any. -/
theorem get_of_step {s t : Handling} {a : HandlingAction} (h : s.step pg a = some t)
    (ha : a.own = true) {k : Uuid} (hk : t.jobs.get k ≠ s.jobs.get k) :
    pg.param s.delivery.jobId = .uuid k := by
  obtain ⟨b, hb, -⟩ := step_own h ha
  rcases a with now | _ | _ | now | ok | _ | jobs <;> simp only [reply] at hb
  · obtain ⟨-, hj⟩ := Prod.mk.inj (Option.some.inj hb)
    exact get_claimJob (hj ▸ hk)
  · obtain ⟨-, hj⟩ := Prod.mk.inj (Option.some.inj hb)
    exact absurd (by rw [hj]) hk
  · split at hb
    · obtain ⟨-, hj⟩ := Prod.mk.inj (Option.some.inj hb)
      exact absurd (by rw [hj]) hk
    · cases hb
  · split at hb
    · obtain ⟨-, hj⟩ := Prod.mk.inj (Option.some.inj hb)
      exact get_mark (hj ▸ hk)
    · cases hb
  · obtain ⟨-, hj⟩ := Prod.mk.inj (Option.some.inj hb)
    exact absurd (by rw [hj]) hk
  · obtain ⟨-, hj⟩ := Prod.mk.inj (Option.some.inj hb)
    exact absurd (by rw [hj]) hk
  · cases ha

theorem steps_keep_to {v : Option Json} {s : Handling} (hs : s.delivery.jobId = v)
    (as : List HandlingAction) : Steps (step pg) (fun s a t => a.own = true →
      ∀ k, t.jobs.get k ≠ s.jobs.get k → pg.param v = .uuid k) s as := by
  have hstep : ∀ (s : Handling) a t, s.delivery.jobId = v → True → s.step pg a = some t →
      t.delivery.jobId = v ∧ (a.own = true → ∀ k, t.jobs.get k ≠ s.jobs.get k →
        pg.param v = .uuid k) := fun s a t hI _ h =>
    ⟨(jobId_of_step h).trans hI, fun ha k hk => hI ▸ get_of_step h ha hk⟩
  exact Steps.of_inv hstep hs steps_true

end Handling

theorem relayed_eq (hu : ∀ u ∈ jobId, u < 0x10000) {body : List UInt8}
    (h : Relayed pg (messageBody (some (.string jobId))) body) :
    body = messageBody (some (.string jobId)) := by
  induction h with
  | refl => rfl
  | @hop b jobs as t m hb h hm ih =>
    rw [Handling.sent_of_run m hm, ih, Handling.start_jobId (receive_messageBody hu)]

theorem messages_keep_to_job (pg : Pg) {jobId : CodeUnits} (hu : ∀ u ∈ jobId, u < 0x10000)
    {body : List UInt8} (h : Relayed pg (messageBody (some (.string jobId))) body) :
    KeepsTo pg jobId body := by
  obtain rfl := relayed_eq hu h
  have hread := receive_messageBody hu
  refine ⟨hread, fun hnul jobs as t h => ?_, fun hnul jobs as t h => ?_, fun jobs as => ?_⟩
  · exact Handling.harmless ((poison_messageBody hu).not.2 hnul) h
  · have herr : pg.param (some (.string jobId)) = .error (some "22021") := by
      simp [Pg.param, pg.text_string, hnul]
    exact Handling.requeued_of_refused hread herr (by simp) h
  · exact Handling.steps_keep_to (Handling.start_jobId hread jobs) as

/-- A UUID's text, and PostgreSQL where it is the only one. -/
def uuidText : CodeUnits :=
  ascii ['0', '0', '0', '0', '0', '0', '0', '0', '-', '0', '0', '0', '0', '-', '0', '0', '0', '0',
    '-', '0', '0', '0', '0', '-', '0', '0', '0', '0', '0', '0', '0', '0', '0', '0', '0', '1']

def oneUuid : Pg :=
  { Handling.stringsOnly with uuid := fun s => if s = uuidText then some 1 else none }

/-- A job that fails, and the steps of the handler that publishes its retry. -/
def failingJobs : Jobs := ⟨[newJob 0 1 "email" [("shouldFail", .bool true)]], by decide⟩

def retrySteps : List HandlingAction := [.claimJob 0, .processJob, .record 0, .publish true]

theorem messages_keep_to_job_retried :
    ∃ t, exec (Handling.step oneUuid)
        (Handling.start (messageBody (some (.string uuidText))) failingJobs) retrySteps = some t
      ∧ KeepsTo oneUuid uuidText (messageBody (some (.string uuidText))) := by
  have hmem : (Destination.retry 2000, messageBody (some (.string uuidText)))
      ∈ trace (Handling.step oneUuid) (Handling.sent oneUuid)
        (Handling.start (messageBody (some (.string uuidText))) failingJobs) retrySteps := by
    decide
  exact ⟨_, rfl, messages_keep_to_job oneUuid (by decide) (.hop .refl rfl hmem)⟩

end DeadLetter
