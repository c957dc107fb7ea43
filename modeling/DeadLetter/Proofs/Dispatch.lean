import DeadLetter.Dispatch
import DeadLetter.Lease
import DeadLetter.Proofs.Outbox

/-!
# The dispatch protocol

A run that is about to mark an event has had its publish return (`Dispatch.Returned`), so a
published row is one whose job was published. A row's `claimed_at` is the lease a claim takes on
its event and a failure mark gives back (`Dispatch.Leased`): while the clock does not go back, a
lease is taken again only when it is more than 30 seconds old.
-/

namespace DeadLetter

open Transition

namespace Dispatch

variable {l : List Dispatched} {s t : Dispatch}

theorem step_run {r : ℕ} {a : OutboxAction} (h : s.step (.run r a) = some t) :
    t.now = s.now ∧ s.outbox.step s.now r a = some t.outbox := by
  simp only [step, Option.map_eq_some_iff] at h
  obtain ⟨o, ho, rfl⟩ := h
  exact ⟨rfl, ho⟩

theorem step_insert {id jobId : Uuid} (h : s.step (.insert id jobId) = some t) :
    t.now = s.now ∧ t.outbox.runs = s.outbox.runs
      ∧ insertOutboxEvent s.now s.outbox.events id jobId = some t.outbox.events := by
  simp only [step, Option.map_eq_some_iff] at h
  obtain ⟨events, he, rfl⟩ := h
  exact ⟨rfl, rfl, he⟩

theorem known_step {a : DispatchAction} (hk : s.outbox.Known) (h : s.step a = some t) :
    t.outbox.Known := by
  cases a with
  | clock u =>
    obtain rfl := Option.some.inj h
    exact hk
  | insert id jobId =>
    obtain ⟨events, he, rfl⟩ := Option.map_eq_some_iff.1 h
    exact hk.insert he
  | run r a => exact hk.step (step_run h).2

/-- No step removes a row, gives it to another job or clears its `published_at`. -/
theorem row_kept {a : DispatchAction} (h : s.step a = some t) {k : Uuid} {e : OutboxEvent}
    (he : s.outbox.events.get k = some e) :
    ∃ e', t.outbox.events.get k = some e' ∧ e'.jobId = e.jobId
      ∧ (e.publishedAt ≠ none → e'.publishedAt ≠ none) := by
  cases a with
  | clock u =>
    obtain rfl := Option.some.inj h
    exact ⟨e, he, rfl, id⟩
  | insert id jobId => exact ⟨e, get_of_insert (step_insert h).2.2 he, rfl, fun hp => hp⟩
  | run r a =>
    obtain ⟨e', he', hr⟩ := Outbox.row_step (step_run h).2 he
    exact ⟨e', he', hr.jobId, hr.publishedAt⟩

/-! ## Published events -/

/-- The runs work on rows of the outbox, and where one is about to mark its event, and where a row
is published, the publish of its job has returned. -/
structure Returned (l : List Dispatched) (s : Dispatch) : Prop where
  known : s.outbox.Known
  marking : ∀ r run, s.outbox.runs r = some run → run.phase = .markPublished →
    .published run.event.jobId ∈ l
  row : ∀ k e, s.outbox.events.get k = some e → e.publishedAt ≠ none → .published e.jobId ∈ l

theorem Returned.before (hI : Returned l s) {a : DispatchAction} (h : s.step a = some t)
    {k : Uuid} {e : OutboxEvent} (he : t.outbox.events.get k = some e)
    (hp : e.publishedAt ≠ none) : .published e.jobId ∈ l := by
  cases a with
  | clock u =>
    obtain rfl := Option.some.inj h
    exact hI.row k e he hp
  | insert id jobId =>
    rw [get_insertOutboxEvent (step_insert h).2.2] at he
    split_ifs at he
    · obtain rfl := Option.some.inj he
      exact absurd rfl hp
    · exact hI.row k e he hp
  | run r a =>
    obtain ⟨e₀, he₀, hr⟩ := Outbox.get_of_step (step_run h).2 he
    cases hr with
    | same => exact hI.row k e he₀ hp
    | claimed => exact hI.row k e₀ he₀ hp
    | failed => exact hI.row k e₀ he₀ hp
    | @published reply err run ha hx hrun hph hid =>
      obtain ⟨e', he', hj⟩ := hI.known r run hrun run.event List.mem_cons_self
      rw [← hid, Table.key_of_get he₀, he₀, Option.some.injEq] at he'
      subst he'
      have := hI.marking r run hrun hph
      rwa [← hj] at this

theorem Returned.step (hI : Returned l s) {a : DispatchAction} (h : s.step a = some t) :
    Returned (l ++ s.shown a t) t := by
  refine ⟨?_, ?_, fun k e he hp => List.mem_append_left _ (hI.before h he hp)⟩
  · cases a with
    | clock u =>
      obtain rfl := Option.some.inj h
      exact hI.known
    | insert id jobId =>
      obtain ⟨-, hruns, hins⟩ := step_insert h
      have := hI.known.insert hins
      intro q run hq
      exact this q run (hruns ▸ hq)
    | run r a => exact hI.known.step (step_run h).2
  · intro q run hq hph
    cases a with
    | clock u =>
      obtain rfl := Option.some.inj h
      exact List.mem_append_left _ (hI.marking q run hq hph)
    | insert id jobId =>
      rw [(step_insert h).2.1] at hq
      exact List.mem_append_left _ (hI.marking q run hq hph)
    | run r a =>
      rcases Outbox.run_of_step (step_run h).2 hq with hs | ⟨rfl, rfl, run₀, hs, -, rfl⟩ |
        ⟨rfl, hne, -⟩
      · exact List.mem_append_left _ (hI.marking q run hs hph)
      · exact List.mem_append_right _ (by simp [shown, shownBy, hs])
      · exact absurd hph hne

/-! ## Leases -/

def lease : Dispatched → Option (Lease.Entry Uuid)
  | .claimed es t => some (.grant (es.map (·.id)) t)
  | .markedFailed k => some (.release k)
  | _ => none

def leases (l : List Dispatched) : List (Lease.Entry Uuid) := l.filterMap lease

@[simp] theorem leases_claimed (es : List OutboxEvent) (u : ℤ) :
    leases (l ++ [.claimed es u]) = leases l ++ [.grant (es.map (·.id)) u] := by
  simp [leases, lease]

@[simp] theorem leases_published (k : Uuid) : leases (l ++ [.published k]) = leases l := by
  simp [leases, lease]

@[simp] theorem leases_markedPublished (k : Uuid) :
    leases (l ++ [.markedPublished k]) = leases l := by
  simp [leases, lease]

@[simp] theorem leases_markedFailed (k : Uuid) :
    leases (l ++ [.markedFailed k]) = leases l ++ [.release k] := by
  simp [leases, lease]

def claimedAt (events : OutboxEvents) (k : Uuid) : Option ℤ := (events.get k).bind (·.claimedAt)

section ClaimedAt

variable {now : ℤ} {events : OutboxEvents} {n : ℕ} {scan : Scan} {k id : Uuid}

theorem mem_claimed_ids : k ∈ (claimPendingOutboxEvents now events n scan).2.map (·.id) ↔
    k ∈ pendingIds now events n scan := by
  rw [List.mem_map]
  constructor
  · rintro ⟨e, he, rfl⟩
    obtain ⟨e₀, -, hp, rfl⟩ := mem_claimed.1 he
    exact hp
  · intro hp
    obtain ⟨e, he, rfl, -⟩ := claimable_of_mem_pendingIds hp
    exact ⟨_, mem_claimed.2 ⟨e, he, hp, rfl⟩, rfl⟩

theorem claimedAt_claimPending :
    claimedAt (claimPendingOutboxEvents now events n scan).1 k
      = if k ∈ (claimPendingOutboxEvents now events n scan).2.map (·.id) then some now
        else claimedAt events k := by
  simp only [mem_claimed_ids, claimedAt, get_claimPending]
  split_ifs with hk
  · obtain ⟨e, he, rfl, -⟩ := claimable_of_mem_pendingIds hk
    simp [Table.get_of_mem he]
  · simp

theorem claimedAt_markOutboxPublished :
    claimedAt (markOutboxPublished now events id) k = claimedAt events k := by
  rw [claimedAt, get_markOutboxPublished]
  rcases hg : events.get k with _ | e
  · simp [claimedAt, hg]
  · simp only [Option.map_some, Option.bind_some, claimedAt, hg]
    split_ifs <;> rfl

theorem claimedAt_markOutboxFailed {m : String} :
    claimedAt (markOutboxFailed events id m) k
      = if id = k then none else claimedAt events k := by
  rw [claimedAt, get_markOutboxFailed]
  by_cases h : k = id
  · rcases hg : events.get k with _ | e <;> simp [h]
  · simp [claimedAt, h, Ne.symm h]

end ClaimedAt

theorem claimedAt_of_insert {id jobId : Uuid} (h : s.step (.insert id jobId) = some t) (k : Uuid) :
    claimedAt t.outbox.events k = claimedAt s.outbox.events k := by
  have hins := (step_insert h).2.2
  simp only [claimedAt, get_insertOutboxEvent hins]
  split_ifs with hk
  · rw [hk, show s.outbox.events.get id = none from (Table.insert_eq_some.1 hins).1]
    rfl
  · rfl

/-- A row's `claimed_at` is the lease on its event, no lease is from the future, and leases were
taken apart. -/
structure Leased (l : List Dispatched) (s : Dispatch) : Prop where
  held : ∀ k, Lease.holds k (leases l) = claimedAt s.outbox.events k
  past : ∀ k u, claimedAt s.outbox.events k = some u → u ≤ s.now
  spaced : Lease.Spaced (seconds staleClaimThresholdSeconds) (leases l)

/-- A claim takes only leases that are free or more than 30 seconds old. -/
theorem lt_of_claimed {now : ℤ} {events : OutboxEvents} {n : ℕ} {scan : Scan}
    {k : Uuid} {u : ℤ} (hu : claimedAt events k = some u)
    (hk : k ∈ (claimPendingOutboxEvents now events n scan).2.map (·.id)) :
    u + seconds staleClaimThresholdSeconds < now := by
  obtain ⟨e, he, rfl, hc⟩ := claimable_of_mem_pendingIds (mem_claimed_ids.1 hk)
  rw [claimedAt, Table.get_of_mem he] at hu
  simp only [OutboxEvent.claimable, Bool.and_eq_true] at hc
  rw [show e.claimedAt = some u from hu] at hc
  have := hc.2
  simp only [decide_eq_true_eq] at this
  omega

theorem Leased.grant (hI : Leased l s) (hnow : t.now = s.now) {scan : Scan}
    (he : t.outbox.events
      = (claimPendingOutboxEvents s.now s.outbox.events batchSize scan).1) :
    Leased (l ++ [.claimed (claimPendingOutboxEvents s.now s.outbox.events batchSize scan).2
      s.now]) t := by
  refine ⟨fun k => ?_, fun k u hu => ?_, ?_⟩
  · rw [he, claimedAt_claimPending, leases_claimed, Lease.holds_append, Lease.Entry.after,
      hI.held]
  · rw [he, claimedAt_claimPending] at hu
    split_ifs at hu with hk
    · rw [hnow, ← Option.some.inj hu]
    · exact hnow ▸ hI.past k u hu
  · rw [leases_claimed]
    refine hI.spaced.grant fun k hk u hu => ?_
    rw [hI.held] at hu
    exact lt_of_claimed hu hk

theorem Leased.keep (hI : Leased l s) (hnow : t.now = s.now) {l' : List Dispatched}
    (hl : leases (l ++ l') = leases l)
    (he : ∀ k, claimedAt t.outbox.events k = claimedAt s.outbox.events k) :
    Leased (l ++ l') t := by
  refine ⟨fun k => ?_, fun k u hu => ?_, ?_⟩
  · rw [hl, he, hI.held]
  · exact hnow ▸ hI.past k u (he k ▸ hu)
  · rw [hl]
    exact hI.spaced

theorem Leased.release (hI : Leased l s) (hnow : t.now = s.now) {k : Uuid} {m : String}
    (he : t.outbox.events = markOutboxFailed s.outbox.events k m) :
    Leased (l ++ [.markedFailed k]) t := by
  refine ⟨fun k' => ?_, fun k' u hu => ?_, ?_⟩
  · rw [he, claimedAt_markOutboxFailed, leases_markedFailed, Lease.holds_append,
      Lease.Entry.after, hI.held]
  · rw [he, claimedAt_markOutboxFailed] at hu
    split_ifs at hu
    exact hnow ▸ hI.past k' u hu
  · rw [leases_markedFailed]
    exact hI.spaced.release

theorem Leased.run (hI : Leased l s) {r : ℕ} {a : OutboxAction}
    (h : s.step (.run r a) = some t) : Leased (l ++ s.shownBy r a) t := by
  obtain ⟨hnow, h⟩ := step_run h
  have hnil : leases (l ++ []) = leases l := by rw [List.append_nil]
  generalize ho : t.outbox = o at h
  cases Outbox.step_cases h with
  | claimed => exact hI.grant hnow (by rw [ho])
  | claimLost => exact hI.grant hnow (by rw [ho])
  | @published run hr =>
    have hs : s.shownBy r (.publish .ok) = [.published run.event.jobId] := by simp [shownBy, hr]
    rw [hs]
    exact hI.keep hnow (leases_published _) fun k => by rw [ho]; rfl
  | @marked run err hr =>
    have hs : s.shownBy r (.markPublished .ok err) = [.markedPublished run.event.id] := by
      simp [shownBy, hr, Reply.executed]
    rw [hs]
    exact hI.keep hnow (leases_markedPublished _) fun k => by rw [ho, claimedAt_markOutboxPublished]
  | @markThrew run reply err hr hp hne =>
    simp only [shownBy, hr]
    split_ifs with hx
    · refine hI.keep hnow (leases_markedPublished _) fun k => ?_
      rw [ho]; simp only [hx, if_true, claimedAt_markOutboxPublished]
    · exact hI.keep hnow hnil fun k => by rw [ho]; simp [hx]
  | @failed run m hr =>
    have hs : s.shownBy r (.markFailed .ok) = [.markedFailed run.event.id] := by
      simp [shownBy, hr, Reply.executed]
    rw [hs]
    exact hI.release hnow (m := m) (by rw [ho])
  | @failThrew run m reply hr hp hne =>
    simp only [shownBy, hr]
    split_ifs with hx
    · exact hI.release hnow (m := m) (by rw [ho]; simp only [hx, if_true])
    · exact hI.keep hnow hnil fun k => by rw [ho]; simp [hx]
  | claimFailed => exact hI.keep hnow hnil fun k => by rw [ho]
  | publishThrew => exact hI.keep hnow hnil fun k => by rw [ho]; rfl
  | crash => exact hI.keep hnow hnil fun k => by rw [ho]; rfl

theorem Leased.step (hI : Leased l s) {a : DispatchAction} (hf : Forward s a t)
    (h : s.step a = some t) : Leased (l ++ s.shown a t) t := by
  cases a with
  | clock u =>
    obtain rfl := Option.some.inj h
    simp only [shown, List.append_nil]
    exact ⟨hI.held, fun k v hv => (hI.past k v hv).trans hf, hI.spaced⟩
  | insert id jobId =>
    have hnow := (step_insert h).1
    have hat := claimedAt_of_insert h
    simp only [shown, List.append_nil]
    exact ⟨fun k => (hI.held k).trans (hat k).symm,
      fun k v hv => hnow ▸ hI.past k v (hat k ▸ hv), hI.spaced⟩
  | run r a => exact hI.run h

theorem returned_init : Returned [] init :=
  ⟨fun _ _ h => by simp [init] at h, fun _ _ h => by simp [init] at h,
    fun _ _ h => by simp [init] at h⟩

theorem leased_init : Leased [] init :=
  ⟨fun k => by simp [leases, Lease.holds, claimedAt, init],
    fun k u h => by simp [claimedAt, init] at h, by simpa [leases] using Lease.Spaced.nil⟩

/-! ## The protocol -/

/-- What holds of the outbox in a state reached, `l` being what the run has shown. -/
structure Protocol (l : List Dispatched) (s : Dispatch) : Prop where
  /-- A row is published only after the publish of its job has returned. -/
  publishedAfter : ∀ a t, s.step a = some t → ∀ e ∈ t.outbox.events, e.publishedAt ≠ none →
    .published e.jobId ∈ l
  /-- No step removes an event or clears its `published_at`. -/
  publishedStays : ∀ a t, s.step a = some t → ∀ e ∈ s.outbox.events,
    ∃ e' ∈ t.outbox.events, e'.id = e.id ∧ e'.jobId = e.jobId
      ∧ (e.publishedAt ≠ none → e'.publishedAt ≠ none)
  /-- A claim returns unpublished events only, and no more than its batch's size. -/
  claimsPending : ∀ n scan,
    let claimed := (claimPendingOutboxEvents s.now s.outbox.events n scan).2
    claimed.length ≤ n ∧ ∀ e ∈ claimed, e.publishedAt = none
  /-- Two claims of one event are more than 30 seconds apart, or it was marked failed between. -/
  claimsApart : ∀ l₁ es u l₂ fs v l₃, l = l₁ ++ .claimed es u :: (l₂ ++ .claimed fs v :: l₃) →
    ∀ e ∈ es, ∀ f ∈ fs, e.id = f.id → u + seconds 30 < v ∨ .markedFailed e.id ∈ l₂
  /-- An unpublished event is claimable, or is so once 30 seconds have passed since its claim,
  which is not in the future. -/
  claimable : ∀ e ∈ s.outbox.events, e.publishedAt = none → e.claimable s.now = true
    ∨ ∃ u, e.claimedAt = some u ∧ u ≤ s.now ∧ ∀ v, u + seconds 30 < v → e.claimable v = true

theorem Leased.apart (hI : Leased l s) {l₁ l₂ l₃ : List Dispatched} {es fs : List OutboxEvent}
    {u v : ℤ} (hl : l = l₁ ++ .claimed es u :: (l₂ ++ .claimed fs v :: l₃)) {e f : OutboxEvent}
    (he : e ∈ es) (hf : f ∈ fs) (hef : e.id = f.id) :
    u + seconds 30 < v ∨ .markedFailed e.id ∈ l₂ := by
  have hll : leases l = leases l₁ ++ .grant (es.map (·.id)) u ::
      (leases l₂ ++ .grant (fs.map (·.id)) v :: leases l₃) := by
    subst hl
    simp only [leases, List.filterMap_append, List.filterMap_cons, lease]
  rcases hI.spaced.apart (by decide) hll (List.mem_map_of_mem he)
    (hef ▸ List.mem_map_of_mem hf) with h | h
  · exact .inl h
  · obtain ⟨d, hd, hr⟩ := List.mem_filterMap.1 h
    cases d <;> simp only [lease, Option.some.injEq, reduceCtorEq, Lease.Entry.release.injEq] at hr
    exact .inr (hr ▸ hd)

/-- The dispatch protocol holds in every state that any interleaving of dispatcher runs, insertions
and failures reaches, while the database's clock does not go back. -/
theorem dispatch_protocol {as : List DispatchAction} (hs : exec step init as = some s)
    (hf : Steps step Forward init as) : Protocol (trace step shown init as) s := by
  have hR := exec_trace_inv (fun l s a t hI h => hI.step h) returned_init hs
  have hL := exec_trace_inv_of_steps (fun l s a t hI hf h => hI.step hf h)
    leased_init hf hs
  refine ⟨fun a t h e he hp => ?_, fun a t h e he => ?_, fun n scan => ⟨length_claimed, ?_⟩,
    fun l₁ es u l₂ fs v l₃ hl e he f hf hef => hL.apart hl he hf hef, fun e he hp => ?_⟩
  · exact hR.before h (Table.get_of_mem he) hp
  · obtain ⟨e', he', hj, hp⟩ := row_kept h (Table.get_of_mem he)
    exact ⟨e', Table.mem_of_get he', Table.key_of_get he', hj, hp⟩
  · intro e he
    obtain ⟨e₀, he₀, hk, rfl⟩ := mem_claimed.1 he
    obtain ⟨e₁, he₁, hid, hc⟩ := claimable_of_mem_pendingIds hk
    have : e₁ = e₀ := by
      have := Table.get_of_mem he₁
      rw [hid, Table.get_of_mem he₀] at this
      exact (Option.some.inj this).symm
    subst this
    simp only [OutboxEvent.claimable, Bool.and_eq_true, Option.isNone_iff_eq_none] at hc
    exact hc.1
  · rcases hu : e.claimedAt with _ | u
    · exact .inl (by simp [OutboxEvent.claimable, hp, hu])
    · refine .inr ⟨u, rfl, hL.past e.id u ?_, fun v hv => ?_⟩
      · rw [claimedAt, Table.get_of_mem he]; exact hu
      · have : u < v - seconds staleClaimThresholdSeconds := by
          rw [staleClaimThresholdSeconds]; omega
        simp [OutboxEvent.claimable, hp, hu, this]

/-- A run so slow that another claims its event, which it then publishes and marks too. -/
def slowRun : List DispatchAction :=
  [.insert 7 3, .run 0 (.claim {} .ok), .clock (seconds 31),
    .run 1 (.claim {} .ok), .run 1 (.publish .ok), .run 0 (.publish .ok),
    .run 1 (.markPublished .lost (.value "timeout")), .run 0 (.markPublished .ok (.value "")),
    .run 1 (.markFailed .ok), .clock (seconds 32), .run 2 (.claim {} .ok)]

theorem dispatch_protocol_slowRun : ∃ s, exec step init slowRun = some s
    ∧ s.outbox.events.get 7 = some
        { id := 7, jobId := 3, createdAt := 0, publishedAt := some (seconds 31), attempts := 1
          lastError := some "timeout" }
    ∧ Protocol (trace step shown init slowRun) s :=
  ⟨_, rfl, by decide, dispatch_protocol rfl (by unfold Forward; decide)⟩

end Dispatch

end DeadLetter
