import DeadLetter.Proofs.Db

/-!
# Totals over the jobs table

A successful call writes one row, so a total over the table changes by what that row does.
-/

namespace DeadLetter

variable {c : Call} {jobs : Jobs} {i j : Job}

/-- A call that changes a row puts the new one in its place. -/
theorem Call.replace_of_run (hi : jobs.get c.id = some i) (h : (c.run jobs).2 = some j) :
    (c.run jobs).1 = jobs.replace j ∧ j.id = i.id := by
  have hid := Table.key_of_get hi
  rcases hu : c.op.update c.now with _ | u
  · obtain ⟨type, payload, ho⟩ : ∃ type payload, c.op = .createJob type payload := by
      cases ho : c.op <;> simp [ho, JobOp.update] at hu
      exact ⟨_, _, rfl⟩
    rcases c.run_createJob ho jobs with ⟨jobs', hins, -⟩ | hr
    · rw [show jobs.get c.id = none from (Table.insert_eq_some.1 hins).1] at hi
      exact absurd hi (by simp)
    · simp [hr] at h
  · rw [Call.run_update hu] at h ⊢
    obtain ⟨i', hi', hc, rfl⟩ := (u.run_snd_eq_some jobs c.id).1 h
    obtain rfl : i' = i := Option.some.inj (hi'.symm.trans hi)
    exact ⟨(Table.replace_eq_updateKey u.set_id hi hc).symm, u.set_id i'⟩

theorem Call.sum_run (f : Job → ℕ) (hi : jobs.get c.id = some i) (h : (c.run jobs).2 = some j) :
    ((c.run jobs).1.rows.map f).sum + f i = (jobs.rows.map f).sum + f j := by
  obtain ⟨hr, hid⟩ := Call.replace_of_run hi h
  rw [hr, Table.sum_replace f (by rw [hid, Table.key_of_get hi, hi])]

theorem Call.countP_run (p : Job → Bool) (hi : jobs.get c.id = some i)
    (h : (c.run jobs).2 = some j) :
    (c.run jobs).1.rows.countP p + (if p i then 1 else 0)
      = jobs.rows.countP p + if p j then 1 else 0 := by
  obtain ⟨hr, hid⟩ := Call.replace_of_run hi h
  rw [hr, Table.countP_replace p (by rw [hid, Table.key_of_get hi, hi])]

/-- A call that adds a row adds it last. -/
theorem Call.rows_of_create (hn : jobs.get c.id = none) (h : (c.run jobs).2 = some j) :
    (c.run jobs).1.rows = jobs.rows ++ [j] := by
  have hw := (Call.writes h).1
  rw [hn] at hw
  cases hw with
  | create ho =>
    rcases c.run_createJob ho jobs with ⟨jobs', hins, hr⟩ | hr <;> rw [hr] at h ⊢
    · exact (Table.insert_eq_some.1 hins).2
    · simp at h

end DeadLetter
