import DeadLetter.Migrate

/-!
# The ledger and the files committed

The lock keeps every run but one from its ledger read to its last commit, and a file's SQL and its
row are in one transaction. So the ledger is what has been committed, in order, and a run's
commits are the head of what it found pending.
-/

namespace DeadLetter

open Transition

def Migrated.run : Migrated → ℕ
  | .committed x _ | .failed x => x

namespace Migrations

variable {l m : List Migrated} {x y : ℕ}

theorem committedBy_append (p : ℕ → Bool) (l m : List Migrated) :
    committedBy p (l ++ m) = committedBy p l ++ committedBy p m :=
  List.filterMap_append

theorem committedBy_committed (p : ℕ → Bool) (x : ℕ) (fs : List Filename) :
    committedBy p (fs.map (.committed x)) = if p x then fs else [] := by
  induction fs with
  | nil => cases p x <;> rfl
  | cons f fs ih =>
    simp only [committedBy, List.map_cons, List.filterMap_cons] at ih ⊢
    cases hp : p x <;> simp only [hp, Bool.false_eq_true, if_false, if_true] at ih ⊢
    · exact ih
    · rw [ih]

theorem commitsOf_of_ne (h : ∀ e ∈ m, e.run ≠ x) : commitsOf x m = [] := by
  rw [commitsOf, committedBy, List.filterMap_eq_nil_iff]
  intro e he
  cases e with
  | committed y f =>
    have hy : y ≠ x := h _ he
    simp [hy]
  | failed y => rfl

/-- No commit of run `x` follows a failure of it. -/
def Stops (x : ℕ) (l : List Migrated) : Prop :=
  ∀ l₁ l₂, l = l₁ ++ .failed x :: l₂ → commitsOf x l₂ = []

theorem Stops.of_not_mem (h : .failed x ∉ l) : Stops x l := by
  intro l₁ l₂ hl
  exact absurd (by simp [hl]) h

theorem Stops.append_failed (h : Stops x l) : Stops x (l ++ [.failed x]) := by
  intro l₁ l₂ hl
  rcases concat_eq_append_cons hl with ⟨rfl, -, -⟩ | ⟨l₃, rfl, hl₃⟩
  · rfl
  · rw [commitsOf, committedBy_append, show committedBy _ l₃ = [] from h l₁ l₃ hl₃]
    rfl

theorem Stops.append_of_ne (h : Stops x l) (hm : ∀ e ∈ m, e.run ≠ x) :
    Stops x (l ++ m) := by
  intro l₁ l₂ hl
  rcases List.append_eq_append_iff.1 hl with ⟨as, rfl, has⟩ | ⟨cs, rfl, hcs⟩
  · exact absurd rfl (hm (.failed x) (by rw [has]; simp))
  · rcases cs with _ | ⟨c, cs⟩
    · exact absurd rfl (hm (.failed x) (by rw [← List.nil_append m, ← hcs]; simp))
    · rw [List.cons_append, List.cons.injEq] at hcs
      obtain ⟨rfl, rfl⟩ := hcs
      rw [commitsOf, committedBy_append, show committedBy _ cs = [] from h l₁ cs rfl,
        List.nil_append]
      exact commitsOf_of_ne hm

end Migrations

/-! ## One run -/

namespace MigrateRun

open Migrations

variable {x y : ℕ} {l m : List Migrated} {db db' : MigrationDb} {run run' : MigrateRun}
  {a : Awaited}

/-- The transaction that a file's statements have left, from its `BEGIN` on. -/
def txAt : FileStep → Filename → Option MigrationTx
  | .readFile, _ | .begin, _ => none
  | .sql, _ => some {}
  | .insert, f => some { sql := [f] }
  | .commit, f => some { sql := [f], inserted := [f] }

/-- A run with files left, `rest`, has committed the others that it found pending. -/
structure Applying (x : ℕ) (l : List Migrated) (db : MigrationDb) (run : MigrateRun)
    (rest : List Filename) : Prop where
  unfailed : .failed x ∉ l
  lock : db.lock = some x
  ledger : db.ledger ≠ none
  commits : commitsOf x l ++ rest = run.pending
  fresh : ∀ f ∈ rest, f ∉ db.alreadyApplied
  covers : ∀ f ∈ run.filenames, f ∈ db.alreadyApplied ∨ f ∈ rest

/-- What holds of a run in its phase. -/
def At (x : ℕ) (l : List Migrated) (db : MigrationDb) (run : MigrateRun) : Prop :=
  match run.phase with
  | .connect | .lock => commitsOf x l = [] ∧ .failed x ∉ l
  | .createLedger => commitsOf x l = [] ∧ .failed x ∉ l ∧ db.lock = some x
  | .select => commitsOf x l = [] ∧ .failed x ∉ l ∧ db.lock = some x ∧ db.ledger ≠ none
  | .apply st filename rest =>
    Applying x l db run (filename :: rest) ∧ ∀ tx ∈ txAt st filename, run.tx = some tx
  | .unlock exitCode | .endClient exitCode | .done exitCode =>
    if exitCode = 0 then ∀ f ∈ run.filenames, f ∈ db.alreadyApplied else .failed x ∈ l
  | .rollback | .crashed => .failed x ∈ l

structure Inv (x : ℕ) (l : List Migrated) (db : MigrationDb) (run : MigrateRun) : Prop where
  ascending : run.filenames.Pairwise (· < ·)
  pending : run.pending.Sublist run.filenames
  commits : commitsOf x l <+: run.pending
  stops : Stops x l
  phase : At x l db run

theorem nodup_pending (hI : Inv x l db run) : run.pending.Nodup :=
  (hI.ascending.sublist hI.pending).imp fun h => ne_of_lt h

theorem Applying.of_eq {rest : List Filename} (h : Applying x l db run rest)
    (hf : run'.filenames = run.filenames) (hp : run'.pending = run.pending) :
    Applying x l db run' rest :=
  ⟨h.unfailed, h.lock, h.ledger, hp ▸ h.commits, h.fresh, hf ▸ h.covers⟩

/-- A run goes on to its next file, or has none left. -/
theorem Applying.next {rest : List Filename} (h : Applying x l db run rest)
    (hp : run.phase = nextFile rest) : At x l db run := by
  cases rest with
  | nil =>
    simp only [At, hp, nextFile, if_true]
    intro f hf
    exact (h.covers f hf).resolve_right (by simp)
  | cons f rest =>
    simp only [At, hp, nextFile]
    exact ⟨h, by simp [txAt]⟩

theorem alreadyApplied_commit (hl : db.ledger ≠ none) (tx : MigrationTx) :
    (db.commit tx).alreadyApplied = db.alreadyApplied ++ tx.inserted := by
  rcases db with ⟨_ | fs, lock⟩
  · exact absurd rfl hl
  · rfl

/-- A commit of the file at hand leaves the rest. -/
theorem Applying.committed {f : Filename} {rest : List Filename}
    (h : Applying x l db run (f :: rest)) (hn : run.pending.Nodup) :
    Applying x (l ++ [.committed x f]) (db.commit { sql := [f], inserted := [f] }) run rest := by
  have hc : commitsOf x (l ++ [.committed x f]) = commitsOf x l ++ [f] := by
    rw [commitsOf, committedBy_append]
    simp [committedBy, commitsOf]
  have hf : f ∉ rest := by
    have := h.commits ▸ hn
    exact (List.nodup_cons.1 (List.nodup_append.1 this).2.1).1
  have ha := alreadyApplied_commit h.ledger { sql := [f], inserted := [f] }
  refine ⟨by simpa using h.unfailed, h.lock, ?_, ?_, fun g hg => ?_, fun g hg => ?_⟩
  · simpa [MigrationDb.commit] using h.ledger
  · rw [hc, List.append_assoc, ← h.commits]
    rfl
  · rw [ha, List.mem_append, not_or]
    refine ⟨h.fresh g (List.mem_cons_of_mem _ hg), fun hgf => hf ?_⟩
    exact List.mem_singleton.1 hgf ▸ hg
  · rw [ha, List.mem_append, List.mem_singleton]
    rcases h.covers g hg with hg | hg
    · exact .inl (.inl hg)
    · rcases List.mem_cons.1 hg with hg | hg
      · exact .inl (.inr hg)
      · exact .inr hg

variable (x db run) in
/-- What a run does where its await returns, by its phase. -/
inductive Returned : MigrationDb → MigrateRun → Prop
  | connected (hp : run.phase = .connect) : Returned db { run with phase := .lock }
  | locked (hp : run.phase = .lock) (hl : db.lock = none) :
      Returned { db with lock := some x } { run with phase := .createLedger }
  | created (hp : run.phase = .createLedger) :
      Returned { db with ledger := some db.alreadyApplied } { run with phase := .select }
  | selected (hp : run.phase = .select) (hl : db.ledger ≠ none) :
      Returned db { run with
        pending := pendingOf db run.filenames
        phase := nextFile (pendingOf db run.filenames) }
  | read {f : Filename} {rest : List Filename} (hp : run.phase = .apply .readFile f rest) :
      Returned db { run with phase := .apply .begin f rest }
  | begun {f : Filename} {rest : List Filename} (hp : run.phase = .apply .begin f rest) :
      Returned db { run with phase := .apply .sql f rest, tx := some {} }
  | ran {f : Filename} {rest : List Filename} (hp : run.phase = .apply .sql f rest) :
      Returned db { run with
        phase := .apply .insert f rest
        tx := run.tx.map fun tx => { tx with sql := tx.sql ++ [f] } }
  | inserted {f : Filename} {rest : List Filename} (hp : run.phase = .apply .insert f rest)
      (hf : f ∉ db.alreadyApplied) :
      Returned db { run with
        phase := .apply .commit f rest
        tx := run.tx.map fun tx => { tx with inserted := tx.inserted ++ [f] } }
  | committed {f : Filename} {rest : List Filename} (hp : run.phase = .apply .commit f rest) :
      Returned (db.commit (run.tx.getD {})) { run with phase := nextFile rest, tx := none }
  | rolledBack (hp : run.phase = .rollback) :
      Returned db { run with phase := .unlock 1, tx := none }
  | unlocked {c : ℕ} (hp : run.phase = .unlock c) :
      Returned (db.release x) { run with phase := .endClient c }
  | ended {c : ℕ} (hp : run.phase = .endClient c) :
      Returned (db.release x) { run with phase := .done c, tx := none }

theorem over_nextFile (rest : List Filename) : (nextFile rest).over = false := by
  cases rest <;> rfl

theorem Returned.of_step (h : run.step x db .ok = some (db', run')) :
    Returned x db run db' run' := by
  have ho : run.phase.over = false := by
    cases ho : run.phase.over
    · rfl
    · simp [step, ho] at h
  simp only [step, ho, Awaited.executed, if_true, Bool.false_eq_true, if_false] at h
  cases hp : run.phase with
  | lock =>
    by_cases hl : db.lock = none
    · simp [hp, execute, hl, go, after, returned, MigratePhase.over] at h
      obtain ⟨rfl, rfl⟩ := h
      exact .locked hp hl
    · simp [hp, execute, hl] at h
  | select =>
    by_cases hl : db.ledger = none
    · simp [hp, execute, hl] at h
    · simp [execute, go, after, returned, hp, hl, over_nextFile] at h
      obtain ⟨rfl, rfl⟩ := h
      exact .selected hp hl
  | apply st f rest =>
    cases st with
    | insert =>
      by_cases hf : f ∈ db.alreadyApplied
      · simp [hp, execute, hf] at h
      · simp [hp, execute, hf, go, after, returned, MigratePhase.over] at h
        obtain ⟨rfl, rfl⟩ := h
        exact .inserted hp hf
    | commit =>
      simp [execute, go, after, returned, hp, over_nextFile] at h
      obtain ⟨rfl, rfl⟩ := h
      exact .committed hp
    | _ =>
      simp [hp, execute, go, after, returned, MigratePhase.over] at h
      obtain ⟨rfl, rfl⟩ := h
      first
      | exact .read hp
      | exact .begun hp
      | exact .ran hp
  | done => simp [hp, MigratePhase.over] at ho
  | crashed => simp [hp, MigratePhase.over] at ho
  | _ =>
    simp [hp, execute, go, after, returned, MigratePhase.over] at h
    obtain ⟨rfl, rfl⟩ := h
    first
    | exact .connected hp
    | exact .created hp
    | exact .rolledBack hp
    | exact .unlocked hp
    | exact .ended hp

theorem commits_of_ne (hp : ∀ f rest, run.phase ≠ .apply .commit f rest) : run.commits = [] := by
  unfold MigrateRun.commits
  split
  · rename_i hp'
    exact absurd hp' (hp _ _)
  · rfl

/-- A run keeps its files, and commits nothing, so that only its phase is to be looked at. -/
theorem Inv.keep (hI : Inv x l db run) (hc : run.commits = []) (hf : run'.filenames = run.filenames)
    (hp : run'.pending = run.pending) (hat : At x l db' run') :
    Inv x (l ++ run.commits.map (.committed x)) db' run' := by
  rw [hc, List.map_nil, List.append_nil]
  exact ⟨hf ▸ hI.ascending, hf ▸ hp ▸ hI.pending, hp ▸ hI.commits, hI.stops, hat⟩

theorem Inv.returned (hI : Inv x l db run) (h : Returned x db run db' run') :
    Inv x (l ++ run.commits.map (.committed x)) db' run' := by
  have hat := hI.phase
  cases h with
  | connected hp =>
    simp only [At, hp] at hat
    exact hI.keep (commits_of_ne (by simp [hp])) rfl rfl hat
  | locked hp hl =>
    simp only [At, hp] at hat
    exact hI.keep (commits_of_ne (by simp [hp])) rfl rfl ⟨hat.1, hat.2, rfl⟩
  | created hp =>
    simp only [At, hp] at hat
    exact hI.keep (commits_of_ne (by simp [hp])) rfl rfl ⟨hat.1, hat.2.1, hat.2.2, by simp⟩
  | selected hp hl =>
    simp only [At, hp] at hat
    obtain ⟨hn, hf, hlock, -⟩ := hat
    rw [commits_of_ne (by simp [hp]), List.map_nil, List.append_nil]
    refine ⟨hI.ascending, List.filter_sublist, by simp [hn], hI.stops, Applying.next ?_ rfl⟩
    refine ⟨hf, hlock, hl, by simp [hn], fun f hf => ?_, fun f hf => ?_⟩
    · simpa using (List.mem_filter.1 hf).2
    · by_cases ha : f ∈ db.alreadyApplied
      · exact .inl ha
      · exact .inr (List.mem_filter.2 ⟨hf, by simpa using ha⟩)
  | read hp =>
    simp only [At, hp] at hat
    exact hI.keep (commits_of_ne (by simp [hp])) rfl rfl ⟨hat.1.of_eq rfl rfl, by simp [txAt]⟩
  | begun hp =>
    simp only [At, hp] at hat
    exact hI.keep (commits_of_ne (by simp [hp])) rfl rfl ⟨hat.1.of_eq rfl rfl, by simp [txAt]⟩
  | ran hp =>
    simp only [At, hp] at hat
    exact hI.keep (commits_of_ne (by simp [hp])) rfl rfl
      ⟨hat.1.of_eq rfl rfl, by simp [txAt, hat.2 _ rfl]⟩
  | inserted hp hf =>
    simp only [At, hp] at hat
    exact hI.keep (commits_of_ne (by simp [hp])) rfl rfl
      ⟨hat.1.of_eq rfl rfl, by simp [txAt, hat.2 _ rfl]⟩
  | @committed f rest hp =>
    simp only [At, hp] at hat
    obtain ⟨hA, ht⟩ := hat
    have hN := hA.committed (nodup_pending hI)
    have htx : run.tx = some { sql := [f], inserted := [f] } := ht _ rfl
    have hc : run.commits = [f] := by simp [MigrateRun.commits, hp, htx]
    rw [hc, htx]
    exact ⟨hI.ascending, hI.pending, ⟨rest, hN.commits⟩, .of_not_mem hN.unfailed,
      Applying.next (hN.of_eq rfl rfl) rfl⟩
  | rolledBack hp =>
    simp only [At, hp] at hat
    exact hI.keep (commits_of_ne (by simp [hp])) rfl rfl hat
  | unlocked hp =>
    simp only [At, hp] at hat
    exact hI.keep (commits_of_ne (by simp [hp])) rfl rfl hat
  | ended hp =>
    simp only [At, hp] at hat
    exact hI.keep (commits_of_ne (by simp [hp])) rfl rfl hat

/-! ## A step of a run -/

/-- What a step commits. -/
def commitsIn (run : MigrateRun) (a : Awaited) : List Filename :=
  if a.executed then run.commits else []

/-- A step commits nothing, or the file at hand. -/
theorem commitsIn_cases (hI : Inv x l db run) (a : Awaited) : run.commitsIn a = []
    ∨ ∃ f rest, run.commitsIn a = [f] ∧ Applying x l db run (f :: rest) := by
  unfold commitsIn
  split_ifs
  · by_cases hp : ∃ f rest, run.phase = .apply .commit f rest
    · obtain ⟨f, rest, hp⟩ := hp
      have hat := hI.phase
      simp only [At, hp] at hat
      exact .inr ⟨f, rest, by simp [MigrateRun.commits, hp, hat.2 _ rfl], hat.1⟩
    · simp only [not_exists] at hp
      exact .inl (commits_of_ne hp)
  · exact .inl rfl

/-- A step leaves the lock with another session that has it, and the ledger there. -/
structure Kept (x : ℕ) (db db' : MigrationDb) : Prop where
  lock : ∀ y, y ≠ x → db.lock = some y → db'.lock = some y
  ledger : db.ledger ≠ none → db'.ledger ≠ none

theorem Kept.refl : Kept x db db := ⟨fun _ _ h => h, fun h => h⟩

theorem Kept.release (h : Kept x db db') : Kept x db (db'.release x) := by
  refine ⟨fun y hy hl => ?_, h.ledger⟩
  have := h.lock y hy hl
  simp [MigrationDb.release, this, hy]

theorem execute_spec (hI : Inv x l db run) {tx : Option MigrationTx}
    (h : run.execute x db = some (db', tx)) :
    Kept x db db' ∧ db'.alreadyApplied = db.alreadyApplied ++ run.commits := by
  have hnil : (∀ f rest, run.phase ≠ .apply .commit f rest) →
      db.alreadyApplied = db.alreadyApplied ++ run.commits := fun hp => by
    rw [commits_of_ne hp, List.append_nil]
  cases hp : run.phase with
  | lock =>
    simp only [execute, hp] at h
    split_ifs at h with hl
    obtain ⟨rfl, rfl⟩ : { db with lock := some x } = db' ∧ run.tx = tx := by simpa using h
    exact ⟨⟨fun y _ hy => by simp [hl] at hy, fun h => h⟩, hnil (by simp [hp])⟩
  | createLedger =>
    obtain ⟨rfl, rfl⟩ : { db with ledger := some db.alreadyApplied } = db' ∧ run.tx = tx := by
      simpa [execute, hp] using h
    exact ⟨⟨fun _ _ hy => hy, fun _ => by simp⟩, hnil (by simp [hp])⟩
  | select =>
    simp only [execute, hp] at h
    split_ifs at h with hl
    obtain ⟨rfl, rfl⟩ : db = db' ∧ run.tx = tx := by simpa using h
    exact ⟨.refl, hnil (by simp [hp])⟩
  | apply st f rest =>
    cases st with
    | commit =>
      have hat := hI.phase
      simp only [At, hp] at hat
      have htx : run.tx = some { sql := [f], inserted := [f] } := hat.2 _ rfl
      obtain ⟨rfl, rfl⟩ : db.commit { sql := [f], inserted := [f] } = db' ∧ none = tx := by
        simpa [execute, hp, htx] using h
      refine ⟨⟨fun _ _ hy => hy, fun hl => by simpa [MigrationDb.commit] using hl⟩, ?_⟩
      rw [alreadyApplied_commit hat.1.ledger, MigrateRun.commits, hp, htx]
      rfl
    | insert =>
      simp only [execute, hp] at h
      split_ifs at h with hf
      obtain ⟨rfl, -⟩ := Prod.mk.inj (Option.some.inj h)
      exact ⟨.refl, hnil (by simp [hp])⟩
    | _ =>
      simp only [execute, hp] at h
      obtain ⟨rfl, -⟩ := Prod.mk.inj (Option.some.inj h)
      exact ⟨.refl, hnil (by simp [hp])⟩
  | unlock =>
    simp only [execute, hp] at h
    obtain ⟨rfl, -⟩ := Prod.mk.inj (Option.some.inj h)
    exact ⟨Kept.refl.release, hnil (by simp [hp])⟩
  | _ =>
    simp only [execute, hp] at h
    obtain ⟨rfl, -⟩ := Prod.mk.inj (Option.some.inj h)
    exact ⟨.refl, hnil (by simp [hp])⟩

theorem go_spec {tx : Option MigrationTx} {db₁ : MigrationDb}
    (h : run.go x db₁ tx a = (db', run')) : (db' = db₁ ∨ db' = db₁.release x)
      ∧ run'.filenames = run.filenames ∧ run'.phase = run.after db₁ a
      ∧ (a ≠ .ok → run'.pending = run.pending) := by
  have hp : a ≠ .ok → (if run.phase = .select ∧ a = .ok then pendingOf db₁ run.filenames
      else run.pending) = run.pending := fun ha => if_neg fun hs => ha hs.2
  unfold go at h
  generalize (if run.phase = .select ∧ a = .ok then pendingOf db₁ run.filenames
    else run.pending) = pending at h hp
  simp only at h
  split_ifs at h
  all_goals
    obtain ⟨rfl, rfl⟩ := Prod.mk.inj h
    exact ⟨by simp, rfl, rfl, hp⟩

theorem step_spec (hI : Inv x l db run) (h : run.step x db a = some (db', run')) :
    Kept x db db' ∧ db'.alreadyApplied = db.alreadyApplied ++ run.commitsIn a
      ∧ ∃ db₁ tx, run.go x db₁ tx a = (db', run') := by
  have hend : ∀ {db₁ tx}, Kept x db db₁ →
      db₁.alreadyApplied = db.alreadyApplied ++ run.commitsIn a →
      run.go x db₁ tx a = (db', run') → Kept x db db'
        ∧ db'.alreadyApplied = db.alreadyApplied ++ run.commitsIn a
        ∧ ∃ db₁ tx, run.go x db₁ tx a = (db', run') := by
    intro db₁ tx hk ha hg
    rcases (go_spec hg).1 with rfl | rfl
    · exact ⟨hk, ha, _, _, hg⟩
    · exact ⟨hk.release, ha, _, _, hg⟩
  unfold step at h
  split_ifs at h with ho hx
  · obtain ⟨⟨db₁, tx⟩, he, hg⟩ := Option.map_eq_some_iff.1 h
    obtain ⟨hk, ha⟩ := execute_spec hI he
    exact hend hk (by rw [ha, commitsIn, if_pos hx]) hg
  · exact hend .refl (by rw [commitsIn, if_neg hx, List.append_nil]) (Option.some.inj h)

theorem commitsOf_map (x : ℕ) (fs : List Filename) :
    commitsOf x (fs.map (.committed x)) = fs := by
  simp [commitsOf, committedBy_committed]

/-- A run that fails, or dies, has at most the commit it awaited, and goes no further. -/
theorem Inv.failed (hI : Inv x l db run) (ha : a ≠ .ok)
    (h : run.step x db a = some (db', run')) :
    Inv x (l ++ ((run.commitsIn a).map (.committed x) ++ [.failed x])) db' run' := by
  obtain ⟨-, hl, db₁, tx, hg⟩ := step_spec hI h
  obtain ⟨-, hf, hphase, hp⟩ := go_spec hg
  have hc : commitsOf x (l ++ ((run.commitsIn a).map (.committed x) ++ [.failed x]))
      = commitsOf x l ++ run.commitsIn a := by
    have hm := commitsOf_map x (run.commitsIn a)
    rw [commitsOf] at hm
    rw [commitsOf, committedBy_append, committedBy_append, hm]
    simp [committedBy, commitsOf]
  refine ⟨hf ▸ hI.ascending, hf ▸ hp ha ▸ hI.pending, ?_, ?_, ?_⟩
  · rw [hc, hp ha]
    rcases commitsIn_cases hI a with hn | ⟨f, rest, hn, hA⟩
    · rw [hn, List.append_nil]
      exact hI.commits
    · rw [hn]
      exact ⟨rest, by rw [← hA.commits, List.append_assoc]; rfl⟩
  · rw [← List.append_assoc]
    refine Stops.append_failed ?_
    rcases commitsIn_cases hI a with hn | ⟨f, rest, -, hA⟩
    · simpa [hn] using hI.stops
    · exact .of_not_mem (by simp [hA.unfailed])
  · have hfailed : .failed x ∈ l ++ ((run.commitsIn a).map (.committed x) ++ [.failed x]) := by simp
    have hat := hI.phase
    -- the exit code 0 is only of a run that had no file left
    have hkeep : ∀ c, (if c = 0 then ∀ f ∈ run.filenames, f ∈ db.alreadyApplied
        else .failed x ∈ l) → if c = 0 then ∀ f ∈ run'.filenames, f ∈ db'.alreadyApplied
          else .failed x ∈ l ++ ((run.commitsIn a).map (.committed x) ++ [.failed x]) := by
      intro c hc
      split_ifs at hc ⊢ with h₀
      · intro f hff
        rw [hl]
        exact List.mem_append_left _ (hc f (hf ▸ hff))
      · exact hfailed
    cases a with
    | ok => exact absurd rfl ha
    | died => simpa only [At, hphase, after] using hfailed
    | threw =>
      cases hp : run.phase with
      | apply st f rest =>
        cases st <;> simp [At, hphase, after, threw, hp]
      | unlock c =>
        simp only [At, hp] at hat
        simpa only [At, hphase, after, threw, hp] using hkeep c hat
      | done c =>
        simp only [At, hp] at hat
        simpa only [At, hphase, after, threw, hp] using hkeep c hat
      | _ => simp [At, hphase, after, threw, hp]

theorem Inv.step (hI : Inv x l db run) (h : run.step x db a = some (db', run')) :
    Inv x (l ++ ((run.commitsIn a).map (.committed x) ++ if a = .ok then [] else [.failed x]))
      db' run' := by
  by_cases ha : a = .ok
  · subst ha
    simpa [commitsIn, Awaited.executed] using hI.returned (.of_step h)
  · rw [if_neg ha]
    exact hI.failed ha h

/-- A run is as it was after a step of another. -/
theorem Inv.of_other (hI : Inv x l db run) (hm : ∀ e ∈ m, e.run ≠ x)
    (hlock : db.lock = some x → db'.lock = some x ∧ db'.alreadyApplied = db.alreadyApplied)
    (hledger : db.ledger ≠ none → db'.ledger ≠ none)
    (hsub : db.alreadyApplied ⊆ db'.alreadyApplied) : Inv x (l ++ m) db' run := by
  have hc : commitsOf x (l ++ m) = commitsOf x l := by
    rw [commitsOf, committedBy_append, show committedBy _ m = [] from commitsOf_of_ne hm,
      List.append_nil]
    rfl
  have hf : .failed x ∈ l ++ m ↔ .failed x ∈ l := by
    rw [List.mem_append, or_iff_left]
    exact fun hx => hm _ hx rfl
  refine ⟨hI.ascending, hI.pending, hc ▸ hI.commits, hI.stops.append_of_ne hm, ?_⟩
  have hat := hI.phase
  have hcode : ∀ c, (if c = 0 then ∀ f ∈ run.filenames, f ∈ db.alreadyApplied
      else .failed x ∈ l) → if c = 0 then ∀ f ∈ run.filenames, f ∈ db'.alreadyApplied
        else .failed x ∈ l ++ m := by
    intro c hc
    split_ifs at hc ⊢
    · exact fun f hff => hsub (hc f hff)
    · exact hf.2 hc
  cases hp : run.phase <;> simp only [At, hp, hc, hf] at hat ⊢
  case connect | lock => exact hat
  case createLedger => exact ⟨hat.1, hat.2.1, (hlock hat.2.2).1⟩
  case select => exact ⟨hat.1, hat.2.1, (hlock hat.2.2.1).1, hledger hat.2.2.2⟩
  case apply =>
    obtain ⟨hA, ht⟩ := hat
    obtain ⟨hl, ha⟩ := hlock hA.lock
    exact ⟨⟨hf.not.2 hA.unfailed, hl, hledger hA.ledger, hc ▸ hA.commits,
      fun g hg => ha ▸ hA.fresh g hg, fun g hg => ha ▸ hA.covers g hg⟩, ht⟩
  case rollback | crashed => exact hat
  case unlock c | endClient c | done c =>
    have := hcode _ hat
    simpa only [hf] using this

/-! ## A run in which nothing fails -/

/-- The awaits that a run has left where nothing fails, or more. -/
def left (run : MigrateRun) : ℕ :=
  match run.phase with
  | .connect => 5 * run.filenames.length + 6
  | .lock => 5 * run.filenames.length + 5
  | .createLedger => 5 * run.filenames.length + 4
  | .select => 5 * run.filenames.length + 3
  | .apply .readFile _ rest => 5 * rest.length + 7
  | .apply .begin _ rest => 5 * rest.length + 6
  | .apply .sql _ rest => 5 * rest.length + 5
  | .apply .insert _ rest => 5 * rest.length + 4
  | .apply .commit _ rest => 5 * rest.length + 3
  | .rollback => 3
  | .unlock _ => 2
  | .endClient _ => 1
  | .done _ | .crashed => 0

/-- A run has not failed, and does not wait for the lock of another. -/
def OnTrack (db : MigrationDb) (run : MigrateRun) : Prop :=
  match run.phase with
  | .connect | .lock => db.lock = none
  | .createLedger | .select | .apply _ _ _ => True
  | .unlock c | .endClient c | .done c => c = 0
  | .rollback | .crashed => False

theorem left_nextFile {rest : List Filename} (h : run.phase = nextFile rest) :
    run.left = 5 * rest.length + 2 := by
  cases rest <;> simp [left, h, nextFile, Nat.mul_add]

theorem onTrack_nextFile {rest : List Filename} (h : run.phase = nextFile rest) :
    OnTrack db run := by
  cases rest <;> simp [OnTrack, h, nextFile]

theorem Returned.step (h : Returned x db run db' run') :
    run.step x db .ok = some (db', run') := by
  have ho : run.phase.over = false := by
    cases h with
    | _ hp => simp [hp, MigratePhase.over]
  simp only [MigrateRun.step, ho, Awaited.executed, if_true, Bool.false_eq_true, if_false]
  cases h with
  | selected hp hl => simp [execute, go, after, returned, hp, hl, over_nextFile]
  | committed hp => simp [execute, go, after, returned, hp, over_nextFile]
  | locked hp hl => simp [execute, go, after, returned, hp, hl, MigratePhase.over]
  | inserted hp hf => simp [execute, go, after, returned, hp, hf, MigratePhase.over]
  | _ hp => simp [execute, go, after, returned, hp, MigratePhase.over]

/-- A run on track that has not ended has its next await return, which keeps it on track. -/
theorem OnTrack.step (ht : OnTrack db run) (hI : Inv x l db run) : run.phase = .done 0
    ∨ ∃ db' run', Returned x db run db' run' ∧ OnTrack db' run' ∧ run'.left < run.left := by
  have hat := hI.phase
  cases hp : run.phase with
  | connect =>
    simp only [OnTrack, hp] at ht
    exact .inr ⟨_, _, .connected hp, ht, by simp [left, hp]⟩
  | lock =>
    simp only [OnTrack, hp] at ht
    exact .inr ⟨_, _, .locked hp ht, trivial, by simp [left, hp]⟩
  | createLedger => exact .inr ⟨_, _, .created hp, trivial, by simp [left, hp]⟩
  | select =>
    simp only [At, hp] at hat
    refine .inr ⟨_, _, .selected hp hat.2.2.2, onTrack_nextFile rfl, ?_⟩
    have : (pendingOf db run.filenames).length ≤ run.filenames.length := List.length_filter_le _ _
    rw [left_nextFile rfl, left, hp]
    simp only
    omega
  | apply st f rest =>
    simp only [At, hp] at hat
    cases st with
    | readFile => exact .inr ⟨_, _, .read hp, trivial, by simp [left, hp]⟩
    | begin => exact .inr ⟨_, _, .begun hp, trivial, by simp [left, hp]⟩
    | sql => exact .inr ⟨_, _, .ran hp, trivial, by simp [left, hp]⟩
    | insert =>
      exact .inr ⟨_, _, .inserted hp (hat.1.fresh f (List.mem_cons_self ..)), trivial,
        by simp [left, hp]⟩
    | commit =>
      refine .inr ⟨_, _, .committed hp, onTrack_nextFile rfl, ?_⟩
      rw [left_nextFile rfl, left, hp]
      simp only
      omega
  | unlock c =>
    simp only [OnTrack, hp] at ht
    exact .inr ⟨_, _, .unlocked hp, ht, by simp [left, hp]⟩
  | endClient c =>
    simp only [OnTrack, hp] at ht
    exact .inr ⟨_, _, .ended hp, ht, by simp [left, hp]⟩
  | done c =>
    simp only [OnTrack, hp] at ht
    exact .inl (ht ▸ rfl)
  | rollback => simp [OnTrack, hp] at ht
  | crashed => simp [OnTrack, hp] at ht

end MigrateRun

/-! ## All runs -/

namespace Migrations

open MigrateRun

variable {s t : Migrations}

/-- The ledger is what has been committed, each file once. -/
structure Inv (l : List Migrated) (s : Migrations) : Prop where
  ledger : s.db.alreadyApplied = committed l
  once : (committed l).Nodup
  runs : ∀ x run, s.runs x = some run → MigrateRun.Inv x l s.db run
  unstarted : ∀ x, s.runs x = none → ∀ e ∈ l, e.run ≠ x

theorem filenames_ascending (dir : Directory) : dir.filenames.Pairwise (· < ·) := by
  have hle : dir.filenames.Pairwise (· ≤ ·) := List.pairwise_insertionSort _ _
  have hne : dir.filenames.Nodup :=
    (List.perm_insertionSort _ _).nodup_iff.2 (dir.nodup.filter _)
  exact (hle.and hne).imp fun h => lt_of_le_of_ne h.1 h.2

theorem inv_started (hu : ∀ e ∈ l, e.run ≠ x) (db : MigrationDb)
    (dir : Option Directory) :
    MigrateRun.Inv x (l ++ if dir.isNone then [.failed x] else []) db (started dir) := by
  have hf : .failed x ∉ l := fun h => hu _ h rfl
  have hc := commitsOf_of_ne hu
  cases dir with
  | none =>
    refine ⟨List.Pairwise.nil, List.Sublist.refl _, ?_, (Stops.of_not_mem hf).append_failed, ?_⟩
    · rw [commitsOf, committedBy_append, show committedBy _ l = [] from hc]
      exact List.prefix_rfl
    · simp [At, started]
  | some dir =>
    simp only [started, Option.isNone_some, Bool.false_eq_true, if_false, List.append_nil]
    refine ⟨filenames_ascending dir, List.nil_sublist _, by simp [hc], .of_not_mem hf, ?_⟩
    split_ifs with hn
    · simp [At, hn]
    · exact ⟨hc, hf⟩

theorem Inv.start (hI : Inv l s) {dir : Option Directory} (h : s.step (.start x dir) = some t) :
    Inv (l ++ s.shown (.start x dir) t) t := by
  simp only [Migrations.step] at h
  rcases hx : s.runs x with _ | run <;> simp only [hx, reduceCtorEq, Option.some.injEq] at h
  subst h
  have hu := hI.unstarted x hx
  have hm : ∀ e ∈ (if dir.isNone then [.failed x] else [] : List Migrated), e.run = x := by
    intro e he
    split_ifs at he with hd
    · rw [List.mem_singleton.1 he]; rfl
    · simp at he
  have hcm : committed (l ++ if dir.isNone then [.failed x] else []) = committed l := by
    rw [committed, committedBy_append]
    split_ifs <;> exact List.append_nil _
  refine ⟨hcm ▸ hI.ledger, hcm ▸ hI.once, fun y run hy => ?_, fun y hy e he => ?_⟩
  · by_cases hyx : y = x
    · subst hyx
      obtain rfl : started dir = run := by simpa using hy
      exact inv_started hu s.db dir
    · simp only [Function.update_of_ne hyx] at hy
      exact (hI.runs y run hy).of_other (fun e he => hm e he ▸ Ne.symm hyx) (fun h => ⟨h, rfl⟩)
        (fun h => h) fun f hf => hf
  · have hyx : y ≠ x := by
      rintro rfl
      simp at hy
    simp only [Function.update_of_ne hyx] at hy
    rcases List.mem_append.1 he with he | he
    · exact hI.unstarted y hy e he
    · exact hm e he ▸ Ne.symm hyx

theorem Inv.await (hI : Inv l s) {a : Awaited} (h : s.step (.await x a) = some t) :
    Inv (l ++ s.shown (.await x a) t) t := by
  obtain ⟨run, hx, hs⟩ := Option.bind_eq_some_iff.1 h
  obtain ⟨⟨db', run'⟩, hr, rfl⟩ := Option.map_eq_some_iff.1 hs
  have hR := hI.runs x run hx
  obtain ⟨hk, ha, -⟩ := step_spec hR hr
  have hshown : ∀ u, s.shown (.await x a) u
      = (run.commitsIn a).map (.committed x) ++ if a = .ok then [] else [.failed x] := by
    intro u
    simp only [shown, hx, Option.elim_some, commitsIn]
    split_ifs <;> rfl
  have hm : ∀ u, ∀ e ∈ s.shown (.await x a) u, e.run = x := by
    intro u e he
    rw [hshown, List.mem_append] at he
    rcases he with he | he
    · obtain ⟨f, -, rfl⟩ := List.mem_map.1 he
      rfl
    · split_ifs at he
      · simp at he
      · rw [List.mem_singleton.1 he]; rfl
  have hcm : ∀ u, committed (l ++ s.shown (.await x a) u) = committed l ++ run.commitsIn a := by
    intro u
    rw [hshown, committed, committedBy_append, committedBy_append, committedBy_committed]
    simp only [if_true]
    split_ifs <;> exact congrArg _ (List.append_nil _)
  refine ⟨?_, ?_, fun y r hy => ?_, fun y hy e he => ?_⟩
  · rw [hcm, ← hI.ledger, ha]
  · rw [hcm]
    rcases commitsIn_cases hR a with hn | ⟨f, rest, hn, hA⟩
    · rw [hn, List.append_nil]
      exact hI.once
    · rw [hn]
      refine List.nodup_append.2 ⟨hI.once, List.nodup_singleton _, ?_⟩
      rintro g hg _ hf rfl
      refine hA.fresh g ?_ (hI.ledger ▸ hg)
      rw [List.mem_singleton.1 hf]
      exact List.mem_cons_self ..
  · by_cases hyx : y = x
    · subst hyx
      obtain rfl : run' = r := by simpa using hy
      rw [hshown]
      exact hR.step hr
    · simp only [Function.update_of_ne hyx] at hy
      refine (hI.runs y r hy).of_other (fun e he => hm _ e he ▸ Ne.symm hyx) (fun hl => ?_)
        hk.ledger fun f hf => ha ▸ List.mem_append_left _ hf
      refine ⟨hk.lock y hyx hl, ?_⟩
      rcases commitsIn_cases hR a with hn | ⟨f, rest, -, hA⟩
      · rw [ha, hn, List.append_nil]
      · exact absurd (Option.some.inj (hl.symm.trans hA.lock)) hyx
  · have hyx : y ≠ x := by
      rintro rfl
      simp at hy
    simp only [Function.update_of_ne hyx] at hy
    rcases List.mem_append.1 he with he | he
    · exact hI.unstarted y hy e he
    · exact hm _ e he ▸ Ne.symm hyx

theorem Inv.step (hI : Inv l s) {a : MigrateAction} (h : s.step a = some t) :
    Inv (l ++ s.shown a t) t := by
  cases a with
  | start x dir => exact hI.start h
  | await x a => exact hI.await h

theorem inv_init : Inv [] init :=
  ⟨rfl, List.nodup_nil, fun _ _ h => by simp [init] at h, fun _ _ _ h => by simp at h⟩

theorem inv_of_exec {as : List MigrateAction} (h : exec step init as = some s) :
    Inv (trace step shown init as) s :=
  exec_trace_inv (fun _ _ _ _ hI h => hI.step h) inv_init h

/-- A run on track ends when nothing of it fails, with every file in the ledger. -/
theorem Inv.ends : ∀ {n : ℕ} {l : List Migrated} {s : Migrations} {run : MigrateRun},
    Inv l s → s.runs x = some run → OnTrack s.db run → run.left = n →
      ∃ k t run', exec Migrations.step s (List.replicate k (.await x .ok)) = some t
        ∧ t.runs x = some run' ∧ run'.phase = .done 0
        ∧ ∀ f ∈ run.filenames, f ∈ t.db.alreadyApplied := by
  intro n
  induction n using Nat.strong_induction_on with
  | _ n ih =>
    intro l s run hI hx ht hn
    rcases ht.step (hI.runs x run hx) with hd | ⟨db', run', hr, ht', hlt⟩
    · have hat := (hI.runs x run hx).phase
      simp only [At, hd, if_true] at hat
      exact ⟨0, s, run, rfl, hx, hd, hat⟩
    · have hs : s.step (.await x .ok)
          = some { db := db', runs := Function.update s.runs x (some run') } := by
        simp [Migrations.step, hx, hr.step]
      obtain ⟨k, t, run'', he, hx', hd, ha⟩ := ih run'.left (hn ▸ hlt) (hI.step hs)
        (Function.update_self ..) ht' rfl
      refine ⟨k + 1, t, run'', ?_, hx', hd, ?_⟩
      · exact exec_cons.2 ⟨_, hs, he⟩
      · cases hr <;> exact ha

/-- What holds in a state reached, `l` being what the runs have shown. -/
structure Sound (l : List Migrated) (s : Migrations) : Prop where
  /-- The ledger has the files whose SQL has been committed. -/
  ledger : ∀ f, f ∈ s.db.alreadyApplied ↔ f ∈ committed l
  /-- No file's SQL is committed twice. -/
  once : (committed l).Nodup
  /-- A run commits the files it found pending from the first on, in ascending order. -/
  inOrder : ∀ x run, s.runs x = some run →
    commitsOf x l <+: run.pending ∧ run.pending.Pairwise (· < ·)
  /-- A run commits nothing after a failure. -/
  stops : ∀ x l₁ l₂, l = l₁ ++ .failed x :: l₂ → commitsOf x l₂ = []
  /-- A run that is over and has not failed leaves every file applied. -/
  complete : ∀ x run, s.runs x = some run → run.phase.over = true → .failed x ∉ l →
    ∀ f ∈ run.filenames, f ∈ s.db.alreadyApplied
  /-- A run that starts with the lock free, and of which nothing fails, ends so. -/
  ends : ∀ x dir, s.runs x = none → s.db.lock = none → ∃ n t run,
    exec step s (.start x (some dir) :: List.replicate n (.await x .ok)) = some t
      ∧ t.runs x = some run ∧ run.phase = .done 0
      ∧ ∀ f ∈ dir.filenames, f ∈ t.db.alreadyApplied

/-- However many migrate runs there are, and wherever they fail or die. -/
theorem migrations_sound {as : List MigrateAction} (h : exec step init as = some s) :
    Sound (trace step shown init as) s := by
  have hI := inv_of_exec h
  refine ⟨fun f => by rw [hI.ledger], hI.once, fun x run hx => ?_, fun x l₁ l₂ hl => ?_,
    fun x run hx ho hf => ?_, fun x dir hx hlock => ?_⟩
  · have hR := hI.runs x run hx
    exact ⟨hR.commits, hR.ascending.sublist hR.pending⟩
  · rcases hx : s.runs x with _ | run
    · exact absurd rfl (hI.unstarted x hx (.failed x) (by simp [hl]))
    · exact (hI.runs x run hx).stops l₁ l₂ hl
  · have hat := (hI.runs x run hx).phase
    cases hp : run.phase <;> simp only [At, hp, MigratePhase.over, Bool.false_eq_true] at hat ho
    case done c =>
      split_ifs at hat
      · exact hat
      · exact absurd hat hf
    case crashed => exact absurd hat hf
  · have hs : s.step (.start x (some dir))
        = some { s with runs := Function.update s.runs x (some (started (some dir))) } := by
      simp [Migrations.step, hx]
    have ht : OnTrack s.db (started (some dir)) := by
      unfold started OnTrack
      by_cases hn : dir.filenames = [] <;> simp [hn, hlock]
    obtain ⟨n, t, run, he, hx', hd, ha⟩ := (hI.step hs).ends (Function.update_self ..) ht rfl
    exact ⟨n, t, run, exec_cons.2 ⟨_, hs, he⟩, hx', hd, ha⟩

def directory : Directory where
  names := [.ofChars ['2', '.', 's', 'q', 'l'], .ofChars ['R', 'E', 'A', 'D'],
    .ofChars ['1', '.', 's', 'q', 'l']]
  nodup := by decide

/-- Two runs at once: the one that has the lock applies a file and dies in its second commit, which
is executed; the other then finds nothing to do. -/
def racing : List MigrateAction :=
  [.start 0 (some directory), .start 1 (some directory), .await 0 .ok, .await 1 .ok]
    ++ List.replicate 12 (.await 0 .ok) ++ [.await 0 (.died true)]
    ++ List.replicate 5 (.await 1 .ok)

theorem migrations_sound_racing : ∃ s, exec step init racing = some s
    ∧ committed (trace step shown init racing) = [[49, 46, 115, 113, 108], [50, 46, 115, 113, 108]]
    ∧ Sound (trace step shown init racing) s :=
  ⟨_, rfl, by decide, migrations_sound rfl⟩

end Migrations

end DeadLetter
