import DeadLetter.Outbox

/-!
# The steps of a dispatcher run

What each step does to the rows and to the run (`OutboxStep`), and what the claim returns: rows
that were unpublished and unclaimed or claimed too long ago, each once, and no more than asked.
-/

namespace DeadLetter

section Claim

variable {now : ℤ} {events : OutboxEvents} {n : ℕ} {scan : Scan}

theorem claimable_of_mem_pendingIds {k : Uuid} (h : k ∈ pendingIds now events n scan) :
    ∃ e ∈ events, e.id = k ∧ e.claimable now = true := by
  obtain ⟨e, he, rfl⟩ := List.mem_map.1 h
  have hmet := (List.mem_insertionSort _).1 (List.mem_of_mem_take he)
  have := (List.mem_insertionSort _).1 hmet
  simp only [List.mem_filter, Bool.and_eq_true] at this
  exact ⟨e, this.1, rfl, this.2.1⟩

theorem length_pendingIds : (pendingIds now events n scan).length ≤ n := by
  simp only [pendingIds, List.length_map, List.length_take]
  omega

/-- The rows a claim returns are the pending ones, with the claim's time. -/
theorem mem_claimed {e : OutboxEvent} :
    e ∈ (claimPendingOutboxEvents now events n scan).2 ↔
      ∃ e₀ ∈ events, e₀.id ∈ pendingIds now events n scan
        ∧ { e₀ with claimedAt := some now } = e := by
  simp [claimPendingOutboxEvents, Table.mem_returning]

theorem get_claimPending (k : Uuid) :
    (claimPendingOutboxEvents now events n scan).1.get k
      = (events.get k).map fun e =>
          if k ∈ pendingIds now events n scan then { e with claimedAt := some now } else e := by
  rw [claimPendingOutboxEvents, Table.get_update]
  refine Option.map_congr fun e he => ?_
  simp [Table.key_of_get he]

theorem nodup_claimed : ((claimPendingOutboxEvents now events n scan).2.map (·.id)).Nodup := by
  refine ((List.perm_insertionSort _ _).map _).nodup_iff.2 ?_
  simp only [Table.returning, List.map_map]
  exact events.nodup.sublist (List.filter_sublist.map _)

theorem length_claimed : (claimPendingOutboxEvents now events n scan).2.length ≤ n := by
  have hsub : (claimPendingOutboxEvents now events n scan).2.map (·.id)
      ⊆ pendingIds now events n scan := by
    intro k hk
    obtain ⟨e, he, rfl⟩ := List.mem_map.1 hk
    obtain ⟨e₀, -, hp, rfl⟩ := mem_claimed.1 he
    exact hp
  have := (List.subperm_of_subset nodup_claimed hsub).length_le
  rw [List.length_map] at this
  exact this.trans length_pendingIds

end Claim

/-! ## One step -/

section Step

variable (now : ℤ) (s : Outbox) (r : ℕ)

inductive OutboxStep : OutboxAction → Outbox → Prop
  | claimed {scan : Scan} (h : s.runs r = none) :
      OutboxStep (.claim scan .ok)
        { events := (claimPendingOutboxEvents now s.events batchSize scan).1
          runs := Function.update s.runs r
            (DispatchRun.start (claimPendingOutboxEvents now s.events batchSize scan).2) }
  | claimFailed {scan : Scan} (h : s.runs r = none) :
      OutboxStep (.claim scan .failed) s
  | claimLost {scan : Scan} (h : s.runs r = none) :
      OutboxStep (.claim scan .lost)
        { s with events := (claimPendingOutboxEvents now s.events batchSize scan).1 }
  | published {run : DispatchRun} (h : s.runs r = some run) (hp : run.phase = .publish) :
      OutboxStep (.publish .ok) (s.setRun r (some { run with phase := .markPublished }))
  | publishThrew {run : DispatchRun} {err : Thrown} {b : Bool} (h : s.runs r = some run)
      (hp : run.phase = .publish) :
      OutboxStep (.publish (.threw err b))
        (s.setRun r (some { run with phase := .markFailed err.message }))
  | marked {run : DispatchRun} {err : Thrown} (h : s.runs r = some run)
      (hp : run.phase = .markPublished) :
      OutboxStep (.markPublished .ok err)
        { events := markOutboxPublished now s.events run.event.id
          runs := Function.update s.runs r { run with published := run.published + 1 }.next }
  | markThrew {run : DispatchRun} {reply : Reply} {err : Thrown} (h : s.runs r = some run)
      (hp : run.phase = .markPublished) (hr : reply ≠ .ok) :
      OutboxStep (.markPublished reply err)
        { events := if reply.executed then markOutboxPublished now s.events run.event.id
            else s.events
          runs := Function.update s.runs r (some { run with phase := .markFailed err.message }) }
  | failed {run : DispatchRun} {message : String} (h : s.runs r = some run)
      (hp : run.phase = .markFailed message) :
      OutboxStep (.markFailed .ok)
        { events := markOutboxFailed s.events run.event.id message
          runs := Function.update s.runs r { run with failed := run.failed + 1 }.next }
  | failThrew {run : DispatchRun} {message : String} {reply : Reply} (h : s.runs r = some run)
      (hp : run.phase = .markFailed message) (hr : reply ≠ .ok) :
      OutboxStep (.markFailed reply)
        { events := if reply.executed then markOutboxFailed s.events run.event.id message
            else s.events
          runs := Function.update s.runs r none }
  | crash : OutboxStep .crash (s.setRun r none)

variable {now s r}

theorem Outbox.step_cases {a : OutboxAction} {t : Outbox} (h : s.step now r a = some t) :
    OutboxStep now s r a t := by
  cases a with
  | claim scan reply =>
    unfold Outbox.step at h
    rcases hr : s.runs r with _ | run <;> rw [hr] at h
    · cases reply <;> simp only [Option.some.injEq] at h <;> subst h
      · exact .claimed hr
      · exact .claimFailed hr
      · exact .claimLost hr
    · simp at h
  | publish reply =>
    unfold Outbox.step at h
    rcases hr : s.runs r with _ | run <;> rw [hr] at h
    · simp at h
    · simp only at h
      split_ifs at h with hp
      cases reply <;> simp only [Option.some.injEq] at h <;> subst h
      · exact .published hr hp
      · exact .publishThrew hr hp
  | markPublished reply err =>
    unfold Outbox.step at h
    rcases hr : s.runs r with _ | run <;> rw [hr] at h
    · simp at h
    · by_cases hp : run.phase = .markPublished
      · simp only [hp, if_true] at h
        cases reply <;> simp only [Option.some.injEq] at h <;> subst h
        · exact .marked hr hp
        · exact .markThrew hr hp (by simp)
        · exact .markThrew hr hp (by simp)
      · simp [hp] at h
  | markFailed reply =>
    unfold Outbox.step at h
    rcases hr : s.runs r with _ | run <;> rw [hr] at h
    · simp at h
    · rcases hp : run.phase with _ | _ | message <;> simp only [hp] at h
      · simp at h
      · simp at h
      · cases reply <;> simp only [Option.some.injEq] at h <;> subst h
        · exact .failed hr hp
        · exact .failThrew hr hp (by simp)
        · exact .failThrew hr hp (by simp)
  | crash =>
    obtain rfl : s.setRun r none = t := by simpa [Outbox.step] using h
    exact .crash

/-- A step of one run leaves the others. -/
theorem Outbox.runs_of_ne {a : OutboxAction} {t : Outbox} (h : s.step now r a = some t) {q : ℕ}
    (hq : q ≠ r) : t.runs q = s.runs q := by
  cases Outbox.step_cases h <;> first | rfl | exact Function.update_of_ne hq _ _

theorem get_markOutboxPublished (events : OutboxEvents) (id k : Uuid) :
    (markOutboxPublished now events id).get k
      = (events.get k).map fun e => if k = id then { e with publishedAt := some now } else e := by
  rw [markOutboxPublished, Table.get_updateKey]
  by_cases h : k = id
  · simp [h]
  · simp [h, Option.map_id']

theorem get_markOutboxFailed (events : OutboxEvents) (id k : Uuid) (m : String) :
    (markOutboxFailed events id m).get k
      = (events.get k).map fun e => if k = id then
          { e with claimedAt := none, attempts := e.attempts + 1, lastError := some m } else e := by
  rw [markOutboxFailed, Table.get_updateKey]
  by_cases h : k = id
  · simp [h]
  · simp [h, Option.map_id']

theorem Outbox.events_of_markPublished {reply : Reply} {err : Thrown} {t : Outbox}
    {run : DispatchRun} (h : s.step now r (.markPublished reply err) = some t)
    (hx : reply.executed = true) (hr : s.runs r = some run) :
    t.events = markOutboxPublished now s.events run.event.id := by
  cases Outbox.step_cases h with
  | marked hr' =>
    obtain rfl := Option.some.inj (hr.symm.trans hr')
    rfl
  | markThrew hr' =>
    obtain rfl := Option.some.inj (hr.symm.trans hr')
    exact if_pos hx

variable (now s r) in
/-- What a step of run `r` may do to a row: a claim dates it, a publish mark sets `published_at`,
and a failure mark frees it. -/
inductive RowStep (a : OutboxAction) (e : OutboxEvent) : OutboxEvent → Prop
  | same : RowStep a e e
  | claimed {scan : Scan} {reply : Reply} (ha : a = .claim scan reply)
      (hx : reply.executed = true) (h : e.claimable now = true) :
      RowStep a e { e with claimedAt := some now }
  | published {reply : Reply} {err : Thrown} {run : DispatchRun}
      (ha : a = .markPublished reply err) (hx : reply.executed = true) (hr : s.runs r = some run)
      (hp : run.phase = .markPublished) (hid : e.id = run.event.id) :
      RowStep a e { e with publishedAt := some now }
  | failed {reply : Reply} {run : DispatchRun} {m : String} (ha : a = .markFailed reply)
      (hx : reply.executed = true) (hr : s.runs r = some run) (hp : run.phase = .markFailed m)
      (hid : e.id = run.event.id) :
      RowStep a e { e with claimedAt := none, attempts := e.attempts + 1, lastError := some m }

theorem RowStep.jobId {a : OutboxAction} {e e' : OutboxEvent} (h : RowStep now s r a e e') :
    e'.jobId = e.jobId := by
  cases h <;> rfl

theorem RowStep.publishedAt {a : OutboxAction} {e e' : OutboxEvent}
    (h : RowStep now s r a e e') (he : e.publishedAt ≠ none) : e'.publishedAt ≠ none := by
  cases h <;> simp_all

/-- No step removes a row, or makes one of another job. -/
theorem Outbox.row_step {a : OutboxAction} {t : Outbox} (h : s.step now r a = some t) {k : Uuid}
    {e : OutboxEvent} (he : s.events.get k = some e) :
    ∃ e', t.events.get k = some e' ∧ RowStep now s r a e e' := by
  have hid := Table.key_of_get he
  have hclaim : ∀ {scan reply}, a = .claim scan reply → reply.executed = true →
      ∃ e', (claimPendingOutboxEvents now s.events batchSize scan).1.get k = some e'
        ∧ RowStep now s r a e e' := by
    intro scan reply ha hx
    rw [get_claimPending, he]
    refine ⟨_, rfl, ?_⟩
    split_ifs with hk
    · obtain ⟨e₀, he₀, rfl, hc⟩ := claimable_of_mem_pendingIds hk
      rw [Table.get_of_mem he₀, Option.some.injEq] at he
      exact .claimed ha hx (he ▸ hc)
    · exact .same
  have hpub : ∀ {run reply err}, a = .markPublished reply err → reply.executed = true →
      s.runs r = some run → run.phase = .markPublished →
      ∃ e', (markOutboxPublished now s.events run.event.id).get k = some e'
        ∧ RowStep now s r a e e' := by
    intro run reply err ha hx hr hp
    rw [get_markOutboxPublished, he]
    refine ⟨_, rfl, ?_⟩
    split_ifs with hk
    · exact .published ha hx hr hp (hid.trans hk)
    · exact .same
  have hfail : ∀ {run reply m}, a = .markFailed reply → reply.executed = true →
      s.runs r = some run → run.phase = .markFailed m →
      ∃ e', (markOutboxFailed s.events run.event.id m).get k = some e'
        ∧ RowStep now s r a e e' := by
    intro run reply m ha hx hr hp
    rw [get_markOutboxFailed, he]
    refine ⟨_, rfl, ?_⟩
    split_ifs with hk
    · exact .failed ha hx hr hp (hid.trans hk)
    · exact .same
  cases Outbox.step_cases h with
  | claimed => exact hclaim rfl rfl
  | claimLost => exact hclaim rfl rfl
  | marked hr hp => exact hpub rfl rfl hr hp
  | markThrew hr hp =>
    simp only
    split_ifs with hx
    · exact hpub rfl hx hr hp
    · exact ⟨e, he, .same⟩
  | failed hr hp => exact hfail rfl rfl hr hp
  | failThrew hr hp =>
    simp only
    split_ifs with hx
    · exact hfail rfl hx hr hp
    · exact ⟨e, he, .same⟩
  | _ => exact ⟨e, he, .same⟩

theorem Outbox.get_of_step {a : OutboxAction} {t : Outbox} (h : s.step now r a = some t)
    {k : Uuid} {e' : OutboxEvent} (he : t.events.get k = some e') :
    ∃ e, s.events.get k = some e ∧ RowStep now s r a e e' := by
  rcases hs : s.events.get k with _ | e
  · exfalso
    cases Outbox.step_cases h <;> (try simp only [Outbox.setRun] at he) <;>
      (try split_ifs at he) <;>
      simp [get_claimPending, get_markOutboxPublished, get_markOutboxFailed, hs] at he
  · obtain ⟨e'', he'', hr⟩ := Outbox.row_step h hs
    rw [he, Option.some.injEq] at he''
    exact ⟨e, rfl, he'' ▸ hr⟩

/-! ## The events of a run -/

def DispatchRun.events (run : DispatchRun) : List OutboxEvent := run.event :: run.rest

theorem DispatchRun.start_events {es : List OutboxEvent} {run : DispatchRun}
    (h : DispatchRun.start es = some run) : run.events = es ∧ run.phase = .publish := by
  cases es with
  | nil => simp [DispatchRun.start] at h
  | cons e es =>
    obtain rfl := Option.some.inj h
    exact ⟨rfl, rfl⟩

theorem DispatchRun.next_events {run run' : DispatchRun} (h : run.next = some run') :
    run'.events = run.rest ∧ run'.phase = .publish := by
  unfold DispatchRun.next at h
  split at h
  · simp at h
  · rename_i hr
    obtain rfl := Option.some.inj h
    exact ⟨hr.symm, rfl⟩

/-- A run after a step is as before, or is run `r`, which has gone to marking the event it
published, or is elsewhere on events it had or has just claimed. -/
theorem Outbox.run_of_step {a : OutboxAction} {t : Outbox} (h : s.step now r a = some t) {q : ℕ}
    {run' : DispatchRun} (hq : t.runs q = some run') :
    s.runs q = some run'
      ∨ (q = r ∧ a = .publish .ok ∧ ∃ run, s.runs r = some run ∧ run.phase = .publish
          ∧ run' = { run with phase := .markPublished })
      ∨ (q = r ∧ run'.phase ≠ .markPublished
          ∧ ((∃ run, s.runs r = some run ∧ run'.events ⊆ run.events)
            ∨ ∃ scan, a = .claim scan .ok
              ∧ run'.events = (claimPendingOutboxEvents now s.events batchSize scan).2)) := by
  by_cases hqr : q = r
  swap
  · refine .inl ?_
    cases Outbox.step_cases h <;> simpa [Outbox.setRun, Function.update_of_ne hqr] using hq
  subst hqr
  have hnext : ∀ {run₀ run : DispatchRun}, s.runs q = some run₀ → run.next = some run' →
      run.rest = run₀.rest → (∃ run, s.runs q = some run ∧ run'.events ⊆ run.events)
        ∧ run'.phase ≠ .markPublished := by
    intro run₀ run h₀ hn hrest
    obtain ⟨he, hp⟩ := DispatchRun.next_events hn
    exact ⟨⟨run₀, h₀, by rw [he, hrest]; exact List.subset_cons_self _ _⟩, by simp [hp]⟩
  cases Outbox.step_cases h with
  | claimed hr =>
    simp only [Function.update_self] at hq
    obtain ⟨he, hp⟩ := DispatchRun.start_events hq
    exact .inr (.inr ⟨rfl, by simp [hp], .inr ⟨_, rfl, he⟩⟩)
  | claimFailed => exact .inl hq
  | claimLost => exact .inl hq
  | @published run hr hp =>
    simp only [Outbox.setRun, Function.update_self, Option.some.injEq] at hq
    exact .inr (.inl ⟨rfl, rfl, run, hr, hp, hq.symm⟩)
  | @publishThrew run err b hr hp =>
    simp only [Outbox.setRun, Function.update_self, Option.some.injEq] at hq
    subst hq
    exact .inr (.inr ⟨rfl, by simp, .inl ⟨run, hr, fun e he => he⟩⟩)
  | @marked run err hr hp =>
    simp only [Function.update_self] at hq
    obtain ⟨hs, hp'⟩ := hnext hr hq rfl
    exact .inr (.inr ⟨rfl, hp', .inl hs⟩)
  | @markThrew run reply err hr hp hne =>
    simp only [Function.update_self, Option.some.injEq] at hq
    subst hq
    exact .inr (.inr ⟨rfl, by simp, .inl ⟨run, hr, fun e he => he⟩⟩)
  | @failed run m hr hp =>
    simp only [Function.update_self] at hq
    obtain ⟨hs, hp'⟩ := hnext hr hq rfl
    exact .inr (.inr ⟨rfl, hp', .inl hs⟩)
  | failThrew => simp at hq
  | crash => simp [Outbox.setRun] at hq

/-- The events of every run are rows of the outbox, of the same jobs. -/
def Outbox.Known (s : Outbox) : Prop :=
  ∀ q run, s.runs q = some run → ∀ e ∈ run.events,
    ∃ e', s.events.get e.id = some e' ∧ e'.jobId = e.jobId

theorem Outbox.Known.step {a : OutboxAction} {t : Outbox} (hk : s.Known)
    (h : s.step now r a = some t) : t.Known := by
  have hrow : ∀ {e e₀ : OutboxEvent}, s.events.get e.id = some e₀ → e₀.jobId = e.jobId →
      ∃ e', t.events.get e.id = some e' ∧ e'.jobId = e.jobId := by
    intro e e₀ he hj
    obtain ⟨e', he', hs⟩ := Outbox.row_step h he
    exact ⟨e', he', hs.jobId.trans hj⟩
  intro q run' hq e he
  rcases Outbox.run_of_step h hq with hs | ⟨rfl, -, run, hs, -, rfl⟩ | ⟨rfl, -, hs⟩
  · obtain ⟨e₀, he₀, hj⟩ := hk q run' hs e he
    exact hrow he₀ hj
  · obtain ⟨e₀, he₀, hj⟩ := hk q run hs e he
    exact hrow he₀ hj
  · rcases hs with ⟨run, hs, hsub⟩ | ⟨scan, -, hes⟩
    · obtain ⟨e₀, he₀, hj⟩ := hk q run hs e (hsub he)
      exact hrow he₀ hj
    · rw [hes] at he
      obtain ⟨e₀, he₀, -, rfl⟩ := mem_claimed.1 he
      obtain ⟨e', he', hr⟩ := Outbox.row_step h (Table.get_of_mem he₀)
      exact ⟨e', he', hr.jobId⟩

theorem get_insertOutboxEvent {events events' : OutboxEvents} {id jobId : Uuid}
    (h : insertOutboxEvent now events id jobId = some events') (k : Uuid) :
    events'.get k = if k = id then some (newOutboxEvent now id jobId) else events.get k :=
  Table.get_insert h k

/-- It has an id that no row had. -/
theorem get_of_insert {events events' : OutboxEvents} {id jobId k : Uuid} {e : OutboxEvent}
    (h : insertOutboxEvent now events id jobId = some events') (he : events.get k = some e) :
    events'.get k = some e := by
  rw [get_insertOutboxEvent h, if_neg, he]
  rintro rfl
  rw [show events.get k = none from (Table.insert_eq_some.1 h).1] at he
  exact absurd he (by simp)

theorem Outbox.Known.insert {events' : OutboxEvents} {id jobId : Uuid} (hk : s.Known)
    (h : insertOutboxEvent now s.events id jobId = some events') :
    Outbox.Known { s with events := events' } := by
  intro q run hq e he
  obtain ⟨e', he', hj⟩ := hk q run hq e he
  exact ⟨e', get_of_insert h he', hj⟩

/-! ## Events that are due -/

/-- An event stays due until a run publishes its job. -/
theorem Outbox.Due.step {a : OutboxAction} {t : Outbox} {k : Uuid} (hd : s.Due k)
    (hk : s.Known) (h : s.step now r a = some t) :
    t.Due k ∨ a = .publish .ok ∧ ∃ run, s.runs r = some run ∧ run.event.jobId = k := by
  obtain ⟨e, he, hj, hp, hruns⟩ := hd
  obtain ⟨e', he', hr⟩ := Outbox.row_step h (Table.get_of_mem he)
  by_cases hpub : a = .publish .ok ∧ ∃ run, s.runs r = some run ∧ run.event.jobId = k
  · exact .inr hpub
  refine .inl ⟨e', Table.mem_of_get he', hr.jobId.trans hj, ?_, fun q run' hq hph => ?_⟩
  · cases hr with
    | published ha hx hs hph hid => exact absurd hid.symm (hruns r _ hs hph)
    | _ => exact hp
  · rw [Table.key_of_get he']
    rcases Outbox.run_of_step h hq with hs | ⟨-, ha, run, hs, -, rfl⟩ | ⟨-, hne, -⟩
    · exact hruns q run' hs hph
    · intro hid
      obtain ⟨e₁, he₁, hj₁⟩ := hk r run hs run.event (List.mem_cons_self ..)
      rw [show run.event.id = e.id from hid, Table.get_of_mem he, Option.some.injEq] at he₁
      exact hpub ⟨ha, run, hs, by rw [← hj₁, ← he₁, hj]⟩
    · exact absurd hph hne

theorem Outbox.Due.insert {events' : OutboxEvents} {id jobId k : Uuid}
    (h : insertOutboxEvent now s.events id jobId = some events') (hd : s.Due k) :
    Outbox.Due { s with events := events' } k := by
  obtain ⟨e, he, hj, hp, hruns⟩ := hd
  exact ⟨e, (Table.mem_insert h).2 (.inl he), hj, hp, hruns⟩

/-- A new event is due: no run has seen it. -/
theorem Outbox.due_insert {events' : OutboxEvents} {id jobId : Uuid} (hk : s.Known)
    (h : insertOutboxEvent now s.events id jobId = some events') :
    Outbox.Due { s with events := events' } jobId := by
  refine ⟨_, (Table.mem_insert h).2 (.inr rfl), rfl, rfl, fun r run hr _ hid => ?_⟩
  obtain ⟨e, he, -⟩ := hk r run hr run.event (List.mem_cons_self ..)
  rw [hid, (Table.insert_eq_some.1 h).1] at he
  exact absurd he (by simp)

end Step

end DeadLetter
