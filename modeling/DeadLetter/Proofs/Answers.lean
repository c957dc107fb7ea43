import DeadLetter.Proofs.Api
import DeadLetter.Proofs.Versions

/-!
# What was answered stays so

A row that a call has returned is in the tables from then on, as it was or in a later version; and
no other call returns that job in that cycle. So an answer of success is never taken back, whatever
the workers and the other requests do.
-/

namespace DeadLetter

open Transition

/-- The row is one that the call may return. -/
def ApiCall.Gives (job : Job) : ApiCall → Prop
  | .createJob type payload => job = newJob job.updatedAt job.id type payload
  | .claimReplay id => job.id = id ∧ job.status = .queued ∧ job.attemptCount = 0
    ∧ 0 < job.replayCount

/-- The row is there, as it was or in a later version. -/
def Db.Keeps (s : Db) (job : Job) : Prop :=
  ∃ row, s.jobs.get job.id = some row ∧ (row = job ∨ job.Later row)

theorem Db.Keeps.step {s t : Db} {job : Job} {a : DbAction} (hK : s.Keeps job)
    (h : s.step a = some t) : t.Keeps job := by
  obtain ⟨row, hrow, hor⟩ := hK
  have hrun : ∀ {c : Call}, t.jobs = (c.run s.jobs).1 → t.Keeps job := by
    intro c hc
    rcases hr : (c.run s.jobs).2 with _ | j
    · exact ⟨row, by rw [hc, Call.run_of_none hr, hrow], hor⟩
    · obtain ⟨hw, hg⟩ := Call.writes hr
      by_cases hk : job.id = c.id
      · rw [← hk, hrow] at hw
        refine ⟨j, by rw [hc, hg, if_pos hk], .inr ?_⟩
        rcases hor with rfl | hl
        · exact hw.later
        · exact hl.trans hw.later
      · exact ⟨row, by rw [hc, hg, if_neg hk, hrow], hor⟩
  cases a with
  | commit c eventId =>
    simp only [Db.step] at h
    split_ifs at h
    obtain ⟨-, -, hj, -⟩ := Db.commit_eq_some h
    exact hrun hj
  | call c =>
    simp only [Db.step] at h
    split_ifs at h
    exact hrun (by rw [← Option.some.inj h])
  | dispatch now r a =>
    obtain ⟨outbox, -, rfl⟩ := Option.map_eq_some_iff.1 h
    exact ⟨row, hrow, hor⟩

namespace Server

variable {s t : Server} {x y : ℕ} {tx : Tx}

def Returned (s : Server) (x : ℕ) (c : ApiCall) (job : Job) : Prop :=
  s.txs x = some { call := c, phase := .done (.returned (some job)) }

/-- The rows that calls have returned are kept, and no two calls began one cycle of a job. -/
structure Kept (s : Server) : Prop where
  gives : ∀ x c job, s.Returned x c job → c.Gives job ∧ s.db.Keeps job
  apart : ∀ x y c d i j, s.Returned x c i → s.Returned y d j → i.id = j.id →
    i.replayCount = j.replayCount → x = y

/-- No more rows are returned than were, or the one that a call has written. -/
def Returns (s t : Server) : Prop :=
  (∀ y c job, t.Returned y c job → s.Returned y c job)
    ∨ ∃ x tx job event, s.txs x = some tx ∧ tx.phase = .commit (some (job, event))
      ∧ install s.db tx.call job event = some t.db ∧ t.Returned x tx.call job
      ∧ ∀ y c job, y ≠ x → t.Returned y c job → s.Returned y c job

theorem TxStep.returns (ht : TxStep s x tx t) (hx : s.txs x = some tx) : s.Returns t := by
  have hne : ∀ y c job, y ≠ x → t.Returned y c job → s.Returned y c job := by
    intro y c job hy hr
    unfold Returned at *
    rwa [← ht.txs_of_ne hy]
  rcases ht.tables with ⟨-, phase, htx, hp⟩ | ⟨job, event, hp, hi, htx⟩
  · refine .inl fun y c job hr => ?_
    by_cases hy : y = x
    · subst hy
      have heq := Option.some.inj (htx.symm.trans hr)
      exact absurd (Tx.mk.inj heq).2 (hp job)
    · exact hne y c job hy hr
  · exact .inr ⟨x, tx, job, event, hx, hp, hi, htx, hne⟩

theorem returns_of_step {a : ServerAction} (h : s.step a = some t) : s.Returns t := by
  cases step_cases h with
  | @called x c hn =>
    refine .inl fun y d job hr => ?_
    unfold Returned at *
    by_cases hy : y = x
    · subst hy
      simp at hr
    · simpa only [Function.update_of_ne hy] using hr
  | statement hx _ ht => exact ht.returns hx
  | crash hx _ ht => exact ht.returns hx
  | _ => exact .inl fun _ _ _ hr => hr

theorem gives_of_pending {db : Db} {locks : Uuid → Option ℕ} {call : ApiCall} {job : Job}
    (hp : Pending db locks x job call) : call.Gives job := by
  cases call with
  | createJob type payload => exact hp
  | claimReplay id =>
    obtain ⟨-, i, hi, -, hs⟩ := hp
    refine ⟨?_, ?_, ?_, ?_⟩
    · rw [← hs, JobUpdate.set_id]
      exact Table.key_of_get hi
    all_goals rw [← hs]
    · rfl
    · rfl
    · exact Nat.succ_pos _

/-- A cycle that a call begins is one that no call has begun before. -/
theorem Kept.new_cycle (hK : s.Kept) {job : Job} {call : ApiCall} {event : OutboxEvent} {db : Db}
    (hw : Pending s.db s.locks x job call) (hi : install s.db call job event = some db)
    {d : ApiCall} {j : Job} (hr : s.Returned y d j) (hid : j.id = job.id) :
    j.replayCount < job.replayCount := by
  obtain ⟨-, row, hrow, hor⟩ := hK.gives y d j hr
  have hle : j.replayCount ≤ row.replayCount := by
    rcases hor with rfl | hl
    · exact le_rfl
    · exact hl.replays
  cases call with
  | createJob type payload =>
    obtain ⟨-, -, hj⟩ := install_eq_some hi
    have hn := (Table.insert_eq_some.1 hj).1
    rw [← hid, hrow] at hn
    simp at hn
  | claimReplay id =>
    have hgives := gives_of_pending hw
    obtain ⟨-, i, hget, -, hs⟩ := hw
    rw [← hgives.1, ← hid, hrow, Option.some.injEq] at hget
    have hcount : job.replayCount = i.replayCount + 1 := by rw [← hs]; rfl
    rw [hget] at hle
    omega

theorem Kept.step {a : ServerAction} (hK : s.Kept)
    (hI : ∀ y tx, s.txs y = some tx → Held s.db s.locks y tx) (h : s.step a = some t) :
    t.Kept := by
  have hkeeps : ∀ job, s.db.Keeps job → t.db.Keeps job := by
    obtain ⟨bs, hbs⟩ := step_refines hI h
    exact fun job hj => exec_inv (I := fun db : Db => db.Keeps job) (fun _ _ _ hk => hk.step) hj hbs
  rcases returns_of_step h with hold | ⟨x, tx, job, event, hx, hp, hi, hnew, hold⟩
  · exact ⟨fun y c j hr => (hK.gives y c j (hold y c j hr)).imp_right (hkeeps j),
      fun y z c d i j hr hr' => hK.apart y z c d i j (hold y c i hr) (hold z d j hr')⟩
  · obtain ⟨hw, he⟩ := (hI x tx hx).written hp
    have hthis : ∀ c j, t.Returned x c j → c = tx.call ∧ j = job := by
      intro c j hr
      simp only [Returned] at hr hnew
      rw [hnew] at hr
      simp only [Option.some.injEq, Tx.mk.injEq, TxPhase.done.injEq, ApiResult.returned.injEq] at hr
      exact ⟨hr.1.symm, hr.2.symm⟩
    refine ⟨fun y c j hr => ?_, fun y z c d i j hr hr' hid hcount => ?_⟩
    · by_cases hy : y = x
      · obtain ⟨rfl, rfl⟩ := hthis c j (hy ▸ hr)
        refine ⟨gives_of_pending hw, j, ?_, .inl rfl⟩
        have hrun := run_of_install hi hw
        have hget := (Call.writes (congrArg Prod.snd hrun)).2 j.id
        rwa [hrun, if_pos rfl] at hget
      · exact (hK.gives y c j (hold y c j hy hr)).imp_right (hkeeps j)
    · by_cases hy : y = x <;> by_cases hz : z = x
      · rw [hy, hz]
      · obtain ⟨rfl, rfl⟩ := hthis c i (hy ▸ hr)
        have := hK.new_cycle hw hi (hold z d j hz hr') hid.symm
        omega
      · obtain ⟨rfl, rfl⟩ := hthis d j (hz ▸ hr')
        have := hK.new_cycle hw hi (hold y c i hy hr) hid
        omega
      · exact hK.apart y z c d i j (hold y c i hy hr) (hold z d j hz hr') hid hcount

end Server

/-- The cycle of a job that an answer of success tells of. -/
def Response.cycle : Response → Option (Uuid × ℕ)
  | .created jobId _ => some (jobId, 0)
  | .replayed jobId _ replayCount => some (jobId, replayCount)
  | _ => none

namespace Api

variable {env : ApiEnv} {s t : Api}

end Api

end DeadLetter
