import DeadLetter.Proofs.World

/-!
# The attempt budget

A claim counts an attempt without asking whether one is left. The handler asks, but of the row as
its claim returned it. So the budget is kept exactly in the runs in which no claim finds it spent
and no worker dead-letters a job, as exhausted, that another has claimed since.
-/

namespace DeadLetter

open Transition

namespace World

variable {l : List Entry} {s t : World} {w : ℕ} {k : Uuid}

theorem processRuns_append (e : Entry) : processRuns (l ++ [e]) k
    = if e.call.id = k ∧ e.wrote = true then
        if e.call.op = .claimReplay then 0
        else if e.call.op = .claimJob ∧ e.replied = true then processRuns l k + 1
        else processRuns l k
      else processRuns l k := by
  simp [processRuns]

theorem processRuns_of_step {a : WorldAction} (h : s.step a = some t)
    (hn : ∀ e ∈ s.shown a t, e.wrote = true → e.call.id ≠ k) :
    processRuns (l ++ s.shown a t) k = processRuns l k := by
  rcases jobs_of_step h with ⟨he, -⟩ | ⟨e, he, -⟩
  · rw [he, List.append_nil]
  · rw [he, processRuns_append, if_neg]
    exact fun hk => hn e (by simp [he]) hk.2 hk.1

theorem exhausted_of_outcomeOf {job : Job} {r : Except ProcessingError Unit} {m : String}
    (h : outcomeOf job r = .deadLettered m false) : job.maxAttempts ≤ job.attemptCount := by
  unfold outcomeOf at h
  split at h
  · simp at h
  · split_ifs at h with _ hx <;> simp only [Outcome.deadLettered.injEq, reduceCtorEq,
      and_false] at h
    exact hx

/-- What holds in any run: the rows and the workers' copies have the attempts of a new job, a run
of `processJob` is an attempt, and a worker is to dead-letter as exhausted what it found so. -/
structure Budgeted (l : List Entry) (s : World) : Prop where
  row : ∀ k j, s.db.jobs.get k = some j → j.maxAttempts = 5 ∧ processRuns l k ≤ j.attemptCount
  fresh : ∀ k, s.db.jobs.get k = none → processRuns l k = 0
  claimed : ∀ w job, (s.workers w).active = some job → job.maxAttempts = 5
  spent : ∀ w msg job m, (s.workers w).handler = some ⟨msg, .record job (.deadLettered m false)⟩ →
    job.maxAttempts ≤ job.attemptCount

theorem Budgeted.row_step {a : WorldAction} (hI : Budgeted l s) (h : s.step a = some t) (j : Job)
    (hj : t.db.jobs.get k = some j) :
    j.maxAttempts = 5 ∧ processRuns (l ++ s.shown a t) k ≤ j.attemptCount := by
  rcases row_cases h k with ⟨hs, hn⟩ | ⟨e, i, he, hw, hk, hi, hwr⟩
  · rw [processRuns_of_step h hn]
    exact hI.row k j (hs ▸ hj)
  · obtain rfl : i = j := Option.some.inj (hi.symm.trans hj)
    rw [he, processRuns_append, if_pos ⟨hk, hw⟩]
    rcases hg : s.db.jobs.get k with _ | r <;> rw [hg] at hwr
    · obtain ⟨type, payload, ho⟩ := hwr.op_of_none
      cases hwr with
      | create => simp [ho, newJob, hI.fresh k hg]
    · obtain ⟨hr5, hruns⟩ := hI.row k r hg
      refine ⟨hwr.maxAttempts.trans hr5, ?_⟩
      rw [hwr.attemptCount]
      split_ifs with h1 h2 h3 <;> simp_all
      omega

theorem Budgeted.step {a : WorldAction} (hI : Budgeted l s) (h : s.step a = some t) :
    Budgeted (l ++ s.shown a t) t := by
  refine ⟨fun k j hj => hI.row_step h j hj, fun k hk => ?_, fun w job ha => ?_,
    fun w msg job m hh => ?_⟩
  · rcases row_cases h k with ⟨hs, hn⟩ | ⟨e, i, -, -, -, hi, -⟩
    · rw [processRuns_of_step h hn]
      exact hI.fresh k (hs ▸ hk)
    · rw [hk] at hi
      exact absurd hi (by simp)
  · rcases active_of_step h ha with ⟨hs, -⟩ | ⟨rfl, msg, hh, -, hj⟩
    · exact hI.claimed w job hs
    · exact (hI.row_step h job (claimed_step h hh hj).2.1).1
  · rcases record_of_step h hh with hs | ho
    · exact hI.spent w msg job m hs
    · exact exhausted_of_outcomeOf ho.symm

theorem budgeted_init : Budgeted [] init :=
  ⟨fun _ _ h => by simp [init, Db.init] at h, fun _ _ => rfl,
    fun _ _ h => by simp [init, Worker.active] at h, fun _ _ _ _ h => by simp [init] at h⟩

/-! ## Within the budget -/

/-- No row, and no worker's copy of one, is over its attempts. -/
structure Bounded (s : World) : Prop where
  row : ∀ k j, s.db.jobs.get k = some j → j.attemptCount ≤ j.maxAttempts
  claimed : ∀ w job, (s.workers w).active = some job → job.attemptCount ≤ job.maxAttempts

theorem bounded_init : Bounded init :=
  ⟨fun _ _ h => by simp [init, Db.init] at h, fun _ _ h => by simp [init, Worker.active] at h⟩

theorem Bounded.step_of_row {a : WorldAction} (hB : s.Bounded) (h : s.step a = some t)
    (hrow : ∀ k j, t.db.jobs.get k = some j → j.attemptCount ≤ j.maxAttempts) : t.Bounded := by
  refine ⟨hrow, fun w job ha => ?_⟩
  rcases active_of_step h ha with ⟨hs, -⟩ | ⟨rfl, msg, hh, -, hj⟩
  · exact hB.claimed w job hs
  · exact hrow job.id job (claimed_step h hh hj).2.1

theorem Bounded.step {a : WorldAction} (hB : s.Bounded) (hS : Spares s a t)
    (h : s.step a = some t) : t.Bounded := by
  refine hB.step_of_row h fun k j hj => ?_
  rcases row_cases h k with ⟨hs, -⟩ | ⟨e, i, he, hw, rfl, hi, hwr⟩
  · exact hB.row k j (hs ▸ hj)
  · obtain rfl : i = j := Option.some.inj (hi.symm.trans hj)
    rcases hg : s.db.jobs.get e.call.id with _ | r <;> rw [hg] at hwr
    · cases hwr with
      | create => simp [newJob]
    · have hr := hB.row _ r hg
      have hclaim := (hS e (by simp [he]) hw r hg).1
      rw [hwr.attemptCount, hwr.maxAttempts]
      split_ifs with h1 h2
      · omega
      · exact hclaim h2
      · exact hr

theorem exhausted_cases {a : WorldAction} (h : s.step a = some t) {job : Job}
    (hx : s.exhausted a = some job) {e : Entry} (he : e ∈ s.shown a t) :
    ∃ w msg m, e.call.op = .markDeadLettered m
      ∧ (s.workers w).handler = some ⟨msg, .record job (.deadLettered m false)⟩ := by
  unfold exhausted at hx
  split at hx
  · rename_i w reply
    split at hx
    · rename_i msg job' m hh
      obtain rfl := Option.some.inj hx
      rcases shown_cases h he with ⟨_, ha, -⟩ | ⟨v, a', ha, -, hc, -⟩
      · simp at ha
      · obtain ⟨rfl, rfl⟩ := WorldAction.work.inj ha
        rcases Worker.call_cases hc with ⟨_, _, _, ha', -⟩ | ⟨_, _, _, _, hh', -, -, hce⟩
        · simp at ha'
        · obtain ⟨-, ho⟩ := Handler.mk.inj (Option.some.inj (hh.symm.trans hh'))
          obtain ⟨-, rfl⟩ := HandlerPhase.record.inj ho
          exact ⟨w, msg, m, by rw [hce]; rfl, hh⟩
    · simp at hx
  · simp at hx

/-- While no row is over its attempts, a step is within the budget just where it finds it so. -/
theorem fullBudget_iff_spares {a : WorldAction} (hI : Budgeted l s) (hB : s.Bounded)
    (h : s.step a = some t)
    (hrow : ∀ k j, t.db.jobs.get k = some j → j.attemptCount ≤ j.maxAttempts) :
    FullBudget s a t ↔ Spares s a t := by
  -- a worker that is to dead-letter a job as exhausted claimed the last of its attempts
  have hlast : ∀ {job e}, s.exhausted a = some job → e ∈ s.shown a t →
      job.attemptCount = 5 ∧ ∃ m, e.call.op = .markDeadLettered m := by
    intro job e hx he
    obtain ⟨w, msg, m, ho, hh⟩ := exhausted_cases h hx he
    have ha := active_record hh
    have h5 := hI.claimed w job ha
    have hle := hB.claimed w job ha
    have hge := hI.spent w msg job m hh
    exact ⟨by omega, m, ho⟩
  constructor
  · intro hF e he hw r hr
    obtain ⟨j, hj, hwr⟩ := written_row h he hw
    rw [Option.mem_def.1 hr] at hwr
    have hj' := hrow _ j hj
    have hac := hwr.attemptCount
    have hmax := hwr.maxAttempts
    refine ⟨fun ho => ?_, fun job hx => ?_⟩
    · simp only [ho, reduceCtorEq, if_false, if_true] at hac
      omega
    · obtain ⟨h5, m, ho⟩ := hlast hx he
      have hspent := (hF e he hw j hj).1 (by rw [Option.mem_def.1 hx]; rfl)
      have hr5 := (hI.row _ r hr).1
      simp only [ho, reduceCtorEq, if_false] at hac
      omega
  · intro hS e he hw j hj
    obtain ⟨i, hi, hwr⟩ := written_row h he hw
    obtain rfl : i = j := Option.some.inj (hi.symm.trans hj)
    rcases hg : s.db.jobs.get e.call.id with _ | r <;> rw [hg] at hwr
    · obtain ⟨type, payload, ho⟩ := hwr.op_of_none
      refine ⟨fun hx => ?_, fun ho' => by simp [ho] at ho'⟩
      obtain ⟨job, hx⟩ := Option.isSome_iff_exists.1 hx
      obtain ⟨-, m, ho'⟩ := hlast hx he
      simp [ho] at ho'
    · have hac := hwr.attemptCount
      have hmax := hwr.maxAttempts
      refine ⟨fun hx => ?_, fun ho => by simpa only [ho, if_true] using hac⟩
      obtain ⟨job, hx⟩ := Option.isSome_iff_exists.1 hx
      obtain ⟨h5, m, ho⟩ := hlast hx he
      have hcur := (hS e he hw r hg).2 job hx
      have hr5 := (hI.row _ r hg).1
      simp only [ho, reduceCtorEq, if_false] at hac
      omega

/-- The steps of a run in which no row is over its attempts keep the workers' copies so. -/
theorem bounded_of_prefixes {as : List WorldAction}
    (hW : ∀ bs s, bs <+: as → exec step init bs = some s →
      ∀ k j, s.db.jobs.get k = some j → j.attemptCount ≤ j.maxAttempts)
    (h : exec step init as = some s) : s.Bounded := by
  have hR : Steps step (fun _ _ t => ∀ k j, t.db.jobs.get k = some j →
      j.attemptCount ≤ j.maxAttempts) init as := by
    refine steps_iff.2 fun bs a cs has t u ht hu => ?_
    exact hW (bs ++ [a]) u ⟨cs, by simp [has]⟩ (exec_append.2 ⟨t, ht, exec_singleton.2 hu⟩)
  exact exec_inv_of_steps (fun s a t hB hrow h => hB.step_of_row h hrow) bounded_init hR h

theorem budgeted_of_exec {as : List WorldAction} (h : exec step init as = some s) :
    Budgeted (trace step shown init as) s :=
  exec_trace_inv (fun _ _ _ _ hI h => hI.step h) budgeted_init h

/-- The budget is kept in every state of a run and by every step of it, just where each of its
claims finds an attempt left, and each worker that dead-letters a job as exhausted finds the
attempts as it claimed them. -/
theorem budget_kept_iff (as : List WorldAction) :
    ((∀ bs s, bs <+: as → exec step init bs = some s →
        WithinBudget (trace step shown init bs) s) ∧ Steps step FullBudget init as)
      ↔ Steps step Spares init as := by
  constructor
  · rintro ⟨hW, hF⟩
    have hrow : ∀ bs s, bs <+: as → exec step init bs = some s →
        ∀ k j, s.db.jobs.get k = some j → j.attemptCount ≤ j.maxAttempts :=
      fun bs s hbs h k j hj => (hW bs s hbs h j (Table.mem_of_get hj)).1
    refine steps_iff.2 fun bs a cs has t u ht hu => ?_
    have hbs : bs <+: as := ⟨a :: cs, has.symm⟩
    have hB := bounded_of_prefixes (fun ds s hds => hrow ds s (hds.trans hbs)) ht
    refine (fullBudget_iff_spares (budgeted_of_exec ht) hB hu ?_).1
      (steps_iff.1 hF bs a cs has t u ht hu)
    exact hrow (bs ++ [a]) u ⟨cs, by simp [has]⟩ (exec_append.2 ⟨t, ht, exec_singleton.2 hu⟩)
  · intro hS
    have hB : ∀ bs s, bs <+: as → exec step init bs = some s → s.Bounded := by
      rintro bs s ⟨cs, rfl⟩ h
      exact exec_inv_of_steps (fun s a t hB hS h => hB.step hS h) bounded_init hS.left h
    refine ⟨fun bs s hbs h j hj => ?_, steps_iff.2 fun bs a cs has t u ht hu => ?_⟩
    · have hle := (hB bs s hbs h).row j.id j (Table.get_of_mem hj)
      have hruns := ((budgeted_of_exec h).row j.id j (Table.get_of_mem hj)).2
      exact ⟨hle, hruns.trans hle⟩
    · have hSp := steps_iff.1 hS bs a cs has t u ht hu
      have hBt := hB bs t ⟨a :: cs, has.symm⟩ ht
      exact (fullBudget_iff_spares (budgeted_of_exec ht) hBt hu (hBt.step hSp hu).row).2 hSp

/-- A job whose worker dies on it six times, each claim finding the last one stale. -/
def crashLoop : List WorldAction :=
  [.commit ⟨1, 0, .createJob "email" []⟩ 7, .dispatch 0 (.claim {} .ok),
    .dispatch 0 (.publish .ok)]
    ++ (List.range 6).flatMap fun n => [.deliver 0 ⟨1⟩, .work 0 (.claimJob .ok), .crash 0,
      .pass 61000 (seconds (61 * (n + 1)))]

theorem crashLoop_overspends : ∃ s, exec step init crashLoop = some s
    ∧ ¬ WithinBudget (trace step shown init crashLoop) s := by
  have hend : (exec step init crashLoop).map (fun s => (s.db.jobs.get 1).map
      fun j => (j.attemptCount, j.maxAttempts)) = some (some (6, 5)) := by decide
  obtain ⟨s, hs, hend⟩ := Option.map_eq_some_iff.1 hend
  obtain ⟨j, hj, hend⟩ := Option.map_eq_some_iff.1 hend
  obtain ⟨hac, hmax⟩ := Prod.mk.inj hend
  refine ⟨s, hs, fun h => ?_⟩
  have := (h j (Table.mem_of_get hj)).1
  omega

end World

end DeadLetter
