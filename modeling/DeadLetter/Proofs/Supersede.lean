import DeadLetter.Proofs.Dispatch

/-!
# Marks of a superseded run

The marks are by the event's id alone, so one that is executed changes its row whoever has claimed
the event since. A claim is safe for 30 seconds, though: while every mark is executed within that
time of its run's claim, no run has its event claimed by another before it has marked it
(`Holding`).
-/

namespace DeadLetter

open Transition

namespace Dispatch

variable {l : List (ℕ × List Uuid)} {s t : Dispatch} {r : ℕ}

theorem claimer_append (x : ℕ × List Uuid) (k : Uuid) :
    claimer (l ++ [x]) k = if k ∈ x.2 then some x.1 else claimer l k := by
  rw [claimer, getLast?_filter_append]
  simp only [decide_eq_true_eq]
  split_ifs <;> rfl

/-! ## One mark -/

/-- A mark that is executed changes its event's row, unless it sets `published_at` to what it
is. -/
theorem mark_keeps_iff {a : OutboxAction} {run : DispatchRun} {row : OutboxEvent}
    (h : s.step (.run r a) = some t) (ha : (markReply a).isSome) (hr : s.outbox.runs r = some run)
    (hrow : s.outbox.events.get run.event.id = some row) :
    t.outbox.events.get run.event.id = s.outbox.events.get run.event.id
      ↔ (∃ reply ∈ markReply a, reply.executed = false)
        ∨ ∃ reply err, a = .markPublished reply err ∧ row.publishedAt = some s.now := by
  have hpub : (markOutboxPublished s.now s.outbox.events run.event.id).get run.event.id
      = some row ↔ row.publishedAt = some s.now := by
    rw [get_markOutboxPublished, hrow, Option.map_some, if_pos rfl, Option.some.injEq]
    constructor
    · intro he
      rw [← he]
    · intro he
      rw [← he]
  have hfail : ∀ m, (markOutboxFailed s.outbox.events run.event.id m).get run.event.id
      ≠ some row := by
    intro m he
    rw [get_markOutboxFailed, hrow, Option.map_some, if_pos rfl, Option.some.injEq] at he
    have := congrArg OutboxEvent.attempts he
    simp at this
  rw [hrow]
  have h := (step_run h).2
  generalize t.outbox = o at h
  cases Outbox.step_cases h with
  | @marked run' err hr' =>
    obtain rfl := Option.some.inj (hr.symm.trans hr')
    simp [hpub, markReply, Reply.executed]
  | @markThrew run' reply err hr' hp hne =>
    obtain rfl := Option.some.inj (hr.symm.trans hr')
    cases hx : reply.executed <;> simp [hpub, hrow, markReply, hx]
  | @failed run' m hr' =>
    obtain rfl := Option.some.inj (hr.symm.trans hr')
    simp [hfail, markReply, Reply.executed]
  | @failThrew run' m reply hr' hp hne =>
    obtain rfl := Option.some.inj (hr.symm.trans hr')
    cases hx : reply.executed <;> simp [hfail, hrow, markReply, hx]
  | _ => simp [markReply] at ha

/-- A superseded mark leaves its row as it is exactly when it is not executed, or only repeats what
`published_at` is. -/
theorem undisturbed_iff (as : List DispatchAction) : Undisturbed as ↔ Spared as := by
  have hone : ∀ {l s r a run t}, s.step (.run r a) = some t → (markReply a).isSome →
      s.outbox.runs r = some run → Superseded l s r run →
      (t.outbox.events.get run.event.id = s.outbox.events.get run.event.id
        ↔ (∃ reply ∈ markReply a, reply.executed = false)
          ∨ ∃ reply err, a = .markPublished reply err
            ∧ ∀ row ∈ s.outbox.events.get run.event.id, row.publishedAt = some s.now) := by
    rintro l s r a run t h ha hr ⟨-, row, hrow, -⟩
    rw [mark_keeps_iff h ha hr hrow, hrow]
    simp
  constructor
  · intro hU bs r a cs s t run has ha hs h hr hS
    exact (hone h ha hr hS).1 (hU bs r a cs s t run has ha hs h hr hS)
  · intro hU bs r a cs s t run has ha hs h hr hS
    exact (hone h ha hr hS).2 (hU bs r a cs s t run has ha hs h hr hS)

/-! ## Claims that are held -/

/-- A run that is within 30 seconds of its claim is the last to have claimed each of its events, and
their rows carry its claim. -/
structure Holding (l : List (ℕ × List Uuid)) (s : Dispatch) : Prop where
  ids : ∀ r run, s.outbox.runs r = some run → (run.events.map (·.id)).Nodup
  dated : ∀ r run, s.outbox.runs r = some run → ∀ e ∈ run.events, e.claimedAt ≠ none
  held : ∀ r run, s.outbox.runs r = some run → ∀ e ∈ run.events, ∀ u, e.claimedAt = some u →
    s.now ≤ u + seconds staleClaimThresholdSeconds →
      claimer l e.id = some r ∧ claimedAt s.outbox.events e.id = some u

theorem holding_init : Holding [] init :=
  ⟨fun _ _ h => by simp [init] at h, fun _ _ h => by simp [init] at h,
    fun _ _ h => by simp [init] at h⟩

/-- A step that makes no claim, and frees no event of a run within its time. -/
theorem Holding.keep (hI : Holding l s) (hnow : s.now ≤ t.now)
    (hruns : ∀ r run', t.outbox.runs r = some run' →
      ∃ run, s.outbox.runs r = some run ∧ run'.events.Sublist run.events)
    (hat : ∀ r run', t.outbox.runs r = some run' → ∀ e ∈ run'.events, ∀ u, e.claimedAt = some u →
      s.now ≤ u + seconds staleClaimThresholdSeconds →
        claimedAt t.outbox.events e.id = claimedAt s.outbox.events e.id) : Holding l t := by
  refine ⟨fun r run' hr => ?_, fun r run' hr e he => ?_, fun r run' hr e he u hu ht => ?_⟩
  all_goals obtain ⟨run, hrun, hsub⟩ := hruns r run' hr
  · exact (hI.ids r run hrun).sublist (hsub.map _)
  · exact hI.dated r run hrun e (hsub.subset he)
  · rw [hat r run' hr e he u hu (hnow.trans ht)]
    exact hI.held r run hrun e (hsub.subset he) u hu (hnow.trans ht)

/-- A claim by run `q` leaves the events of the others that are within their time. -/
theorem Holding.claim (hI : Holding l s) {q : ℕ} {scan : Scan} (hnow : t.now = s.now)
    (hev : t.outbox.events
      = (claimPendingOutboxEvents s.now s.outbox.events batchSize scan).1)
    (hruns : ∀ r run, t.outbox.runs r = some run → s.outbox.runs r = some run
      ∨ r = q ∧ run.events = (claimPendingOutboxEvents s.now s.outbox.events batchSize scan).2) :
    Holding (l ++ [(q, (claimPendingOutboxEvents s.now s.outbox.events batchSize scan).2.map
      (·.id))]) t := by
  refine ⟨fun r run hr => ?_, fun r run hr e he => ?_, fun r run hr e he u hu ht => ?_⟩
  all_goals rcases hruns r run hr with hs | ⟨rfl, hcl⟩
  · exact hI.ids r run hs
  · exact hcl ▸ nodup_claimed
  · exact hI.dated r run hs e he
  · rw [hcl] at he
    obtain ⟨e₀, -, -, rfl⟩ := mem_claimed.1 he
    simp
  · obtain ⟨hc, ha⟩ := hI.held r run hs e he u hu (hnow ▸ ht)
    have hne : e.id ∉ (claimPendingOutboxEvents s.now s.outbox.events batchSize scan).2.map
        (·.id) := by
      intro hmem
      have := lt_of_claimed ha hmem
      omega
    rw [claimer_append, if_neg hne, hev, claimedAt_claimPending, if_neg hne]
    exact ⟨hc, ha⟩
  · rw [hcl] at he
    have hmem := List.mem_map_of_mem (f := (·.id)) he
    rw [claimer_append, if_pos hmem, hev, claimedAt_claimPending, if_pos hmem]
    obtain ⟨e₀, -, -, rfl⟩ := mem_claimed.1 he
    exact ⟨rfl, hu⟩

/-- An event that a run within its time marks is of no other run within its time. -/
theorem Holding.ne_of_marked (hI : Holding l s) {run : DispatchRun}
    (hr : s.outbox.runs r = some run)
    (hP : ∀ u ∈ run.event.claimedAt, s.now ≤ u + seconds staleClaimThresholdSeconds) {q : ℕ}
    {run' : DispatchRun} (hq : s.outbox.runs q = some run') {e : OutboxEvent}
    (he : e ∈ run'.events) (hrest : q = r → e ∈ run.rest) {u : ℤ} (hu : e.claimedAt = some u)
    (ht : s.now ≤ u + seconds staleClaimThresholdSeconds) : e.id ≠ run.event.id := by
  intro hid
  have hhead : run.event ∈ run.events := List.mem_cons_self
  obtain ⟨v, hv⟩ := Option.ne_none_iff_exists'.1 (hI.dated r run hr run.event hhead)
  obtain ⟨hc, -⟩ := hI.held r run hr run.event hhead v hv (hP v hv)
  obtain ⟨hc', -⟩ := hI.held q run' hq e he u hu ht
  rw [hid, hc, Option.some.injEq] at hc'
  have hids := hI.ids r run hr
  rw [DispatchRun.events, List.map_cons, List.nodup_cons] at hids
  exact hids.1 (hid ▸ List.mem_map_of_mem (hrest hc'.symm))

/-- A step of run `r` that claims nothing leaves each run on some of its events. -/
theorem Holding.move (hI : Holding l s) (hnow : s.now ≤ t.now) {run : DispatchRun}
    {new : Option DispatchRun} (hr : s.outbox.runs r = some run)
    (ht : t.outbox.runs = Function.update s.outbox.runs r new)
    (hnew : ∀ run' ∈ new, run'.events.Sublist run.events)
    (hat : ∀ q run₀ run' e u, s.outbox.runs q = some run₀ → e ∈ run₀.events →
      (q = r → run' ∈ new ∧ e ∈ run'.events) → e.claimedAt = some u →
      s.now ≤ u + seconds staleClaimThresholdSeconds →
        claimedAt t.outbox.events e.id = claimedAt s.outbox.events e.id) : Holding l t := by
  have hruns : ∀ q run', t.outbox.runs q = some run' → ∃ run₀, s.outbox.runs q = some run₀
      ∧ run'.events.Sublist run₀.events ∧ (q = r → run' ∈ new) := by
    intro q run' hq
    rw [ht] at hq
    by_cases hqr : q = r
    · subst hqr
      rw [Function.update_self] at hq
      exact ⟨run, hr, hnew run' hq, fun _ => hq⟩
    · rw [Function.update_of_ne hqr] at hq
      exact ⟨run', hq, List.Sublist.refl _, fun h => absurd h hqr⟩
  refine hI.keep hnow (fun q run' hq => ?_) fun q run' hq e he u hu hon => ?_
  all_goals obtain ⟨run₀, hq₀, hsub, hin⟩ := hruns q run' hq
  · exact ⟨run₀, hq₀, hsub⟩
  · exact hat q run₀ run' e u hq₀ (hsub.subset he) (fun h => ⟨hin h, he⟩) hu hon

/-- A run on the next event has the events that were left. -/
theorem events_sublist_of_rest {run : DispatchRun} {new : Option DispatchRun}
    (hn : ∀ run' ∈ new, run'.events = run.rest) :
    ∀ run' ∈ new, run'.events.Sublist run.events := by
  intro run' hr
  rw [hn run' hr]
  exact List.sublist_cons_self _ _

/-- A failure mark within its run's time frees an event of no other run within its time. -/
theorem Holding.free (hI : Holding l s) (hnow : s.now ≤ t.now) {run : DispatchRun}
    {new : Option DispatchRun} {m : String} (hr : s.outbox.runs r = some run)
    (hP : ∀ u ∈ run.event.claimedAt, s.now ≤ u + seconds staleClaimThresholdSeconds)
    (ht : t.outbox.runs = Function.update s.outbox.runs r new)
    (hnew : ∀ run' ∈ new, run'.events = run.rest)
    (hev : t.outbox.events = markOutboxFailed s.outbox.events run.event.id m) : Holding l t := by
  refine hI.move hnow hr ht (events_sublist_of_rest hnew)
    fun q run₀ run' e u hq he hin hu hon => ?_
  rw [hev, claimedAt_markOutboxFailed, if_neg]
  refine (hI.ne_of_marked hr hP hq he (fun hqr => ?_) hu hon).symm
  exact hnew run' (hin hqr).1 ▸ (hin hqr).2

theorem Holding.run (hI : Holding l s) {a : OutboxAction} (hP : Punctual s (.run r a) t)
    (h : s.step (.run r a) = some t) : Holding (l ++ s.taken (.run r a) t) t := by
  obtain ⟨hnow, h⟩ := step_run h
  have hphase : ∀ {run : DispatchRun} {phase}, ∀ run' ∈ some { run with phase },
      run'.events.Sublist run.events := by
    rintro run phase _ ⟨⟩
    exact List.Sublist.refl _
  have hnext : ∀ {run run' : DispatchRun}, run'.rest = run.rest →
      ∀ run'' ∈ run'.next, run''.events = run.rest := by
    intro run run' hrest run'' hn
    rw [(DispatchRun.next_events hn).1, hrest]
  have hon : ∀ {run reply}, s.outbox.runs r = some run → a = .markFailed reply →
      reply.executed = true →
      ∀ u ∈ run.event.claimedAt, s.now ≤ u + seconds staleClaimThresholdSeconds := by
    intro run reply hr ha hx u hu
    exact hP.2 (r, reply) (by rw [ha]; rfl) hx run hr u hu
  have hnil : l ++ [] = l := List.append_nil l
  generalize ho : t.outbox = o at h
  cases Outbox.step_cases h with
  | claimed hr =>
    refine hI.claim hnow (by rw [ho]) fun q run hq => ?_
    simp only [ho] at hq
    by_cases hqr : q = r
    · subst hqr
      rw [Function.update_self] at hq
      exact .inr ⟨rfl, (DispatchRun.start_events hq).1⟩
    · rw [Function.update_of_ne hqr] at hq
      exact .inl hq
  | claimLost hr =>
    exact hI.claim hnow (by rw [ho]) fun q run hq => .inl (by simpa only [ho] using hq)
  | claimFailed hr =>
    simp only [taken, Reply.executed, Bool.false_eq_true, if_false, hnil]
    exact hI.keep hP.1 (fun q run hq => ⟨run, by rwa [ho] at hq, List.Sublist.refl _⟩)
      fun _ _ _ _ _ _ _ _ => by rw [ho]
  | published hr =>
    simp only [taken, hnil]
    refine hI.move hP.1 hr (congrArg Outbox.runs ho) hphase fun _ _ _ _ _ _ _ _ _ _ => ?_
    rw [ho]
    rfl
  | publishThrew hr =>
    simp only [taken, hnil]
    refine hI.move hP.1 hr (congrArg Outbox.runs ho) hphase fun _ _ _ _ _ _ _ _ _ _ => ?_
    rw [ho]
    rfl
  | marked hr =>
    simp only [taken, hnil]
    refine hI.move hP.1 hr (congrArg Outbox.runs ho) (events_sublist_of_rest (hnext rfl))
      fun _ _ _ _ _ _ _ _ _ _ => ?_
    rw [ho, claimedAt_markOutboxPublished]
  | markThrew hr =>
    simp only [taken, hnil]
    refine hI.move hP.1 hr (congrArg Outbox.runs ho) hphase fun _ _ _ _ _ _ _ _ _ _ => ?_
    simp only [ho]
    split_ifs
    · rw [claimedAt_markOutboxPublished]
    · rfl
  | failed hr =>
    simp only [taken, hnil]
    exact hI.free hP.1 hr (hon hr rfl rfl) (congrArg Outbox.runs ho) (hnext rfl)
      (congrArg Outbox.events ho)
  | @failThrew run m reply hr =>
    simp only [taken, hnil]
    cases hx : reply.executed
    · exact hI.move hP.1 hr (congrArg Outbox.runs ho) (by simp) fun _ _ _ _ _ _ _ _ _ _ => by
        rw [ho]; simp [hx]
    · exact hI.free hP.1 hr (hon hr rfl hx) (congrArg Outbox.runs ho) (by simp)
        ((congrArg Outbox.events ho).trans (if_pos hx))
  | crash =>
    simp only [taken, hnil]
    refine hI.keep hP.1 (fun q run hq => ⟨run, ?_, List.Sublist.refl _⟩)
      fun _ _ _ _ _ _ _ _ => by rw [ho]; rfl
    simp only [ho, Outbox.setRun] at hq
    by_cases hqr : q = r
    · subst hqr
      simp at hq
    · rwa [Function.update_of_ne hqr] at hq

theorem Holding.step (hI : Holding l s) {a : DispatchAction} (hP : Punctual s a t)
    (h : s.step a = some t) : Holding (l ++ s.taken a t) t := by
  cases a with
  | clock u =>
    obtain rfl := Option.some.inj h
    simp only [taken, List.append_nil]
    exact hI.keep hP.1 (fun r run hr => ⟨run, hr, List.Sublist.refl _⟩) fun _ _ _ _ _ _ _ _ => rfl
  | insert id jobId =>
    simp only [taken, List.append_nil]
    refine hI.keep hP.1 (fun r run hr => ⟨run, ?_, List.Sublist.refl _⟩)
      fun _ _ _ e _ _ _ _ => claimedAt_of_insert h e.id
    rwa [(step_insert h).2.1] at hr
  | run r a => exact hI.run hP h

theorem spared_of_punctual {as : List DispatchAction} (hP : Steps step Punctual init as) :
    Spared as := by
  intro bs r a cs s t run has ha hs h hr hS
  obtain ⟨reply, hreply⟩ := Option.isSome_iff_exists.1 ha
  cases hx : reply.executed
  · exact .inl ⟨reply, hreply, hx⟩
  · have hbs : Steps step Punctual init bs := (has ▸ hP).left
    have hI := exec_trace_inv_of_steps (fun l s a t hI hP h => hI.step hP h) holding_init hbs hs
    have hon := (steps_iff.1 hP bs (.run r a) cs has s t hs h).2 (r, reply)
      (Option.mem_map_of_mem _ hreply) hx run hr
    have hhead : run.event ∈ run.events := List.mem_cons_self
    obtain ⟨u, hu⟩ := Option.ne_none_iff_exists'.1 (hI.dated r run hr run.event hhead)
    exact absurd (hI.held r run hr run.event hhead u hu (hon u hu)).1 hS.1

/-- In any run of the system, superseded marks leave the rows of their events as they are exactly
when those that are executed only repeat `published_at`; and they do so wherever the clock does not
go back and no mark is executed more than 30 seconds after its run's claim. -/
theorem undisturbed_iff_spared (as : List DispatchAction) : (Undisturbed as ↔ Spared as)
    ∧ (Steps step Punctual init as → Undisturbed as) :=
  ⟨undisturbed_iff as, fun hP => (undisturbed_iff as).2 (spared_of_punctual hP)⟩

/-- Two runs on one event, of which the first fails to mark it and dies within its time. -/
def inTime : List DispatchAction :=
  [.insert 7 3, .run 0 (.claim {} .ok), .clock (seconds 29),
    .run 0 (.publish (.threw (.value "timeout") false)), .run 0 (.markFailed .failed),
    .clock (seconds 31), .run 1 (.claim {} .ok), .run 1 (.publish .ok),
    .run 1 (.markPublished .ok (.value ""))]

theorem undisturbed_iff_spared_inTime :
    (∃ s, exec step init inTime = some s) ∧ Undisturbed inTime :=
  ⟨⟨_, rfl⟩, (undisturbed_iff_spared inTime).2 (by unfold Punctual; decide)⟩

/-- A run whose publish takes 31 seconds to fail, while another has claimed its event. -/
def lateMark : List DispatchAction :=
  [.insert 7 3, .run 0 (.claim {} .ok), .clock (seconds 31),
    .run 1 (.claim {} .ok), .run 0 (.publish (.threw (.value "timeout") false)),
    .run 0 (.markFailed .ok)]

/-- The mark frees the event that the second run has claimed, and a third claims it too. -/
theorem lateMark_disturbs : ¬ Undisturbed lateMark
    ∧ (exec step init (lateMark ++ [.run 2 (.claim {} .ok)])).map (fun s =>
        ((s.outbox.runs 1).map (·.event.id), (s.outbox.runs 2).map (·.event.id)))
      = some (some 7, some 7) := by
  refine ⟨fun h => ?_, by decide⟩
  have := h (lateMark.take 5) 0 (.markFailed .ok) [] _ _ _ rfl rfl rfl rfl rfl
    ⟨by decide, _, rfl, .inr (by decide)⟩
  exact absurd this (by decide)

end Dispatch

end DeadLetter
