import DeadLetter.Proofs.Dispatch

/-!
# How often an event is published

A row holds what the statements about it say. A claim of a row that was free is its first or
follows a failure; any other takes over from a run that has left it. And a run publishes an event
once for a claim, so that the duplicates of an event are as many as its failures and its claims
left, at most.
-/

namespace DeadLetter

open Transition

namespace Dispatch

variable {l : List OutboxCall} {s t : Dispatch} {k : Uuid}

/-! ## What a step does to a row -/

/-- The call leaves the row of event `k` as it is. -/
structure Silent (k : Uuid) (c : OutboxCall) : Prop where
  inserts : c.inserts k = none
  claims : c.claims k = false
  reclaims : c.reclaims k = false
  publishedAt : c.publishedAt k = none
  failure : c.failure k = none
  claimedAt : c.claimedAt k = none

/-- The call is not about event `k`. -/
structure Apart (k : Uuid) (c : OutboxCall) : Prop extends Silent k c where
  publishes : c.publishes k = false

/-- The calls of a step, and what they make of the row of event `k`. -/
inductive RowMove (k : Uuid) : List OutboxCall → Option OutboxEvent → Option OutboxEvent → Prop
  | apart {m : List OutboxCall} {o : Option OutboxEvent} (h : ∀ c ∈ m, Apart k c) : RowMove k m o o
  | inserted {jobId : Uuid} {now : ℤ} :
      RowMove k [.inserted k jobId now] none (some (newOutboxEvent now k jobId))
  | claimed {r : ℕ} {ids stale : List Uuid} {now : ℤ} {e : OutboxEvent} (hk : k ∈ ids)
      (hs : k ∈ stale ↔ e.claimedAt ≠ none) :
      RowMove k [.claimed r ids stale now] (some e) (some { e with claimedAt := some now })
  | publish {r : ℕ} {e : OutboxEvent} : RowMove k [.publish r k] (some e) (some e)
  | published {now : ℤ} {e : OutboxEvent} :
      RowMove k [.published k now] (some e) (some { e with publishedAt := some now })
  | failed {m : String} {e : OutboxEvent} :
      RowMove k [.failed k m] (some e)
        (some { e with claimedAt := none, attempts := e.attempts + 1, lastError := some m })

theorem apart_inserted {id jobId : Uuid} {now : ℤ} (h : k ≠ id) :
    Apart k (.inserted id jobId now) := by
  refine ⟨⟨?_, ?_, ?_, ?_, ?_, ?_⟩, ?_⟩ <;>
    simp [OutboxCall.inserts, OutboxCall.claims, OutboxCall.reclaims, OutboxCall.publishes,
      OutboxCall.publishedAt, OutboxCall.failure, OutboxCall.claimedAt, h.symm]

theorem apart_claimed {r : ℕ} {ids stale : List Uuid} {now : ℤ} (h : k ∉ ids)
    (hs : stale ⊆ ids) : Apart k (.claimed r ids stale now) := by
  have hs : k ∉ stale := fun hk => h (hs hk)
  refine ⟨⟨?_, ?_, ?_, ?_, ?_, ?_⟩, ?_⟩ <;>
    simp [OutboxCall.inserts, OutboxCall.claims, OutboxCall.reclaims, OutboxCall.publishes,
      OutboxCall.publishedAt, OutboxCall.failure, OutboxCall.claimedAt, h, hs]

theorem apart_publish {r : ℕ} {id : Uuid} (h : k ≠ id) : Apart k (.publish r id) := by
  refine ⟨⟨?_, ?_, ?_, ?_, ?_, ?_⟩, ?_⟩ <;>
    simp [OutboxCall.inserts, OutboxCall.claims, OutboxCall.reclaims, OutboxCall.publishes,
      OutboxCall.publishedAt, OutboxCall.failure, OutboxCall.claimedAt, h.symm]

theorem apart_published {id : Uuid} {now : ℤ} (h : k ≠ id) : Apart k (.published id now) := by
  refine ⟨⟨?_, ?_, ?_, ?_, ?_, ?_⟩, ?_⟩ <;>
    simp [OutboxCall.inserts, OutboxCall.claims, OutboxCall.reclaims, OutboxCall.publishes,
      OutboxCall.publishedAt, OutboxCall.failure, OutboxCall.claimedAt, h.symm]

theorem apart_failed {id : Uuid} {m : String} (h : k ≠ id) : Apart k (.failed id m) := by
  refine ⟨⟨?_, ?_, ?_, ?_, ?_, ?_⟩, ?_⟩ <;>
    simp [OutboxCall.inserts, OutboxCall.claims, OutboxCall.reclaims, OutboxCall.publishes,
      OutboxCall.publishedAt, OutboxCall.failure, OutboxCall.claimedAt, h.symm]

section Calls

variable {now : ℤ} {o : Outbox} {r : ℕ} {run : DispatchRun}

theorem move_nil (row : Option OutboxEvent) : RowMove k [] row row := .apart (by simp)

theorem move_claimed (scan : Scan) {ids : List Uuid}
    (hids : ids = (claimPendingOutboxEvents now o.events batchSize scan).2.map (·.id)) :
    RowMove k
      [.claimed r ids (ids.filter fun k => ((o.events.get k).bind (·.claimedAt)).isSome) now]
      (o.events.get k) ((claimPendingOutboxEvents now o.events batchSize scan).1.get k) := by
  rw [get_claimPending]
  by_cases hc : k ∈ ids
  · rw [hids, mem_claimed_ids] at hc
    obtain ⟨e, he, rfl, -⟩ := claimable_of_mem_pendingIds hc
    rw [Table.get_of_mem he, Option.map_some, if_pos hc]
    have hmem : e.id ∈ ids := by rwa [hids, mem_claimed_ids]
    refine .claimed hmem ?_
    rw [List.mem_filter, Table.get_of_mem he]
    simp [hmem, Option.isSome_iff_ne_none]
  · have hn : k ∉ pendingIds now o.events batchSize scan := by rwa [hids, mem_claimed_ids] at hc
    simp only [hn, if_false, Option.map_id']
    exact .apart fun c hm => List.mem_singleton.1 hm ▸
      apart_claimed hc fun _ hk => (List.mem_filter.1 hk).1

variable (hk : o.Known) (hr : o.runs r = some run)

include hk hr

theorem exists_row : ∃ e, o.events.get run.event.id = some e := by
  obtain ⟨e, he, -⟩ := hk r run hr run.event List.mem_cons_self
  exact ⟨e, he⟩

theorem move_publish {q : ℕ} :
    RowMove k [.publish q run.event.id] (o.events.get k) (o.events.get k) := by
  by_cases hki : k = run.event.id
  · obtain ⟨e, he⟩ := exists_row hk hr
    subst hki
    rw [he]
    exact .publish
  · exact .apart fun c hc => List.mem_singleton.1 hc ▸ apart_publish hki

theorem move_published : RowMove k [.published run.event.id now] (o.events.get k)
    ((markOutboxPublished now o.events run.event.id).get k) := by
  rw [get_markOutboxPublished]
  by_cases hki : k = run.event.id
  · obtain ⟨e, he⟩ := exists_row hk hr
    subst hki
    rw [he, Option.map_some, if_pos rfl]
    exact .published
  · simp only [hki, if_false, Option.map_id']
    exact .apart fun c hc => List.mem_singleton.1 hc ▸ apart_published hki

theorem move_failed {m : String} : RowMove k [.failed run.event.id m] (o.events.get k)
    ((markOutboxFailed o.events run.event.id m).get k) := by
  rw [get_markOutboxFailed]
  by_cases hki : k = run.event.id
  · obtain ⟨e, he⟩ := exists_row hk hr
    subst hki
    rw [he, Option.map_some, if_pos rfl]
    exact .failed
  · simp only [hki, if_false, Option.map_id']
    exact .apart fun c hc => List.mem_singleton.1 hc ▸ apart_failed hki

end Calls

theorem row_move {a : DispatchAction} (hk : s.outbox.Known) (h : s.step a = some t) (k : Uuid) :
    RowMove k (s.calls a t) (s.outbox.events.get k) (t.outbox.events.get k) := by
  cases a with
  | clock u =>
    obtain rfl := Option.some.inj h
    exact move_nil _
  | insert id jobId =>
    have hins := (step_insert h).2.2
    rw [get_insertOutboxEvent hins]
    by_cases hki : k = id
    · subst hki
      rw [if_pos rfl, show s.outbox.events.get k = none from (Table.insert_eq_some.1 hins).1]
      exact .inserted
    · rw [if_neg hki]
      exact .apart fun c hc => List.mem_singleton.1 hc ▸ apart_inserted hki
  | run r a =>
    obtain ⟨o, ho, rfl⟩ := Option.map_eq_some_iff.1 h
    simp only [calls]
    cases Outbox.step_cases ho with
    | claimed => exact move_claimed _ rfl
    | claimFailed => exact move_nil _
    | claimLost => exact move_claimed _ rfl
    | published hr =>
      simp only [callsBy, hr, Option.map_some, Option.toList_some]
      exact move_publish hk hr
    | publishThrew hr =>
      simp only [callsBy, hr, Option.map_some, Option.toList_some]
      exact move_publish hk hr
    | marked hr =>
      simp only [callsBy, hr, Option.map_some, Option.toList_some, Reply.executed, if_true]
      exact move_published hk hr
    | markThrew hr =>
      simp only [callsBy, hr, Option.map_some, Option.toList_some]
      split_ifs
      · exact move_published hk hr
      · exact move_nil _
    | @failed run m hr hp =>
      obtain ⟨phase, event, rest, attempted, published, failed⟩ := run
      obtain rfl : phase = .markFailed m := hp
      simp only [callsBy, hr, Reply.executed, if_true]
      exact move_failed hk hr
    | @failThrew run m reply hr hp =>
      obtain ⟨phase, event, rest, attempted, published, failed⟩ := run
      obtain rfl : phase = .markFailed m := hp
      simp only [callsBy, hr]
      split_ifs
      · exact move_failed hk hr
      · exact move_nil _
    | crash => exact move_nil _

/-! ## What a row holds -/

/-- What is said of event `k` is what its row holds. A row that is free has one claim to come for
which there is a reason. -/
structure RowNoted (l : List OutboxCall) (k : Uuid) (e : OutboxEvent) : Prop where
  inserted : l.filterMap (OutboxCall.inserts k) = [(e.jobId, e.createdAt)]
  claimedAt : e.claimedAt = (l.filterMap (OutboxCall.claimedAt k)).getLast?.join
  publishedAt : e.publishedAt = (l.filterMap (OutboxCall.publishedAt k)).getLast?
  attempts : e.attempts = (l.filterMap (OutboxCall.failure k)).length
  lastError : e.lastError = (l.filterMap (OutboxCall.failure k)).getLast?
  claims : l.countP (OutboxCall.claims k) + (if e.claimedAt = none then 1 else 0)
    ≤ 1 + e.attempts + l.countP (OutboxCall.reclaims k)

theorem filterMap_apart {α : Type*} {f : OutboxCall → Option α} {m : List OutboxCall}
    (h : ∀ c ∈ m, f c = none) : m.filterMap f = [] :=
  List.filterMap_eq_nil_iff.2 h

theorem countP_apart {p : OutboxCall → Bool} {m : List OutboxCall} (h : ∀ c ∈ m, p c = false) :
    m.countP p = 0 :=
  List.countP_eq_zero.2 fun c hc => by simp [h c hc]

theorem RowNoted.silent {m : List OutboxCall} {e : OutboxEvent} (hI : RowNoted l k e)
    (h : ∀ c ∈ m, Silent k c) : RowNoted (l ++ m) k e := by
  constructor
  · rw [List.filterMap_append, filterMap_apart fun c hc => (h c hc).inserts, List.append_nil,
      hI.inserted]
  · rw [List.filterMap_append, filterMap_apart fun c hc => (h c hc).claimedAt, List.append_nil,
      hI.claimedAt]
  · rw [List.filterMap_append, filterMap_apart fun c hc => (h c hc).publishedAt, List.append_nil,
      hI.publishedAt]
  · rw [List.filterMap_append, filterMap_apart fun c hc => (h c hc).failure, List.append_nil,
      hI.attempts]
  · rw [List.filterMap_append, filterMap_apart fun c hc => (h c hc).failure, List.append_nil,
      hI.lastError]
  · rw [List.countP_append, List.countP_append, countP_apart fun c hc => (h c hc).claims,
      countP_apart fun c hc => (h c hc).reclaims]
    exact hI.claims

/-- The first that is said of an event is that its row is put in. -/
theorem rowNoted_inserted {jobId : Uuid} {now : ℤ} (h : ∀ c ∈ l, Apart k c) :
    RowNoted (l ++ [.inserted k jobId now]) k (newOutboxEvent now k jobId) := by
  constructor
  · rw [List.filterMap_append, filterMap_apart fun c hc => (h c hc).inserts]
    simp [OutboxCall.inserts, newOutboxEvent]
  · rw [List.filterMap_append, filterMap_apart fun c hc => (h c hc).claimedAt]
    rfl
  · rw [List.filterMap_append, filterMap_apart fun c hc => (h c hc).publishedAt]
    rfl
  · rw [List.filterMap_append, filterMap_apart fun c hc => (h c hc).failure]
    rfl
  · rw [List.filterMap_append, filterMap_apart fun c hc => (h c hc).failure]
    rfl
  · rw [List.countP_append, List.countP_append, countP_apart fun c hc => (h c hc).claims,
      countP_apart fun c hc => (h c hc).reclaims]
    rfl

theorem RowMove.noted {m : List OutboxCall} {o o' : Option OutboxEvent} (hm : RowMove k m o o')
    (hn : o = none → ∀ c ∈ l, Apart k c) (hI : ∀ e, o = some e → RowNoted l k e) :
    (o' = none → ∀ c ∈ l ++ m, Apart k c) ∧ ∀ e, o' = some e → RowNoted (l ++ m) k e := by
  cases hm with
  | apart h => exact ⟨fun ho => List.forall_mem_append.2 ⟨hn ho, h⟩,
      fun e he => (hI e he).silent fun c hc => (h c hc).toSilent⟩
  | inserted => exact ⟨by simp, fun e he => Option.some.inj he ▸ rowNoted_inserted (hn rfl)⟩
  | @claimed r ids stale now e hk hs =>
    refine ⟨by simp, fun e' he => ?_⟩
    obtain rfl := Option.some.inj he
    obtain ⟨h1, h2, h3, h4, h5, h6⟩ := hI e rfl
    refine ⟨?_, ?_, ?_, ?_, ?_, ?_⟩
    · simp [h1, OutboxCall.inserts]
    · simp [OutboxCall.claimedAt, hk]
    · simp [h3, OutboxCall.publishedAt]
    · simp [h4, OutboxCall.failure]
    · simp [h5, OutboxCall.failure]
    · have hc : List.countP (OutboxCall.claims k) [.claimed r ids stale now] = 1 := by
        simp [OutboxCall.claims, hk]
      have hr : List.countP (OutboxCall.reclaims k) [.claimed r ids stale now]
          = if e.claimedAt = none then 0 else 1 := by
        simp only [List.countP_singleton, OutboxCall.reclaims, decide_eq_true_eq, hs]
        split_ifs <;> simp_all
      rw [List.countP_append, List.countP_append, hc, hr]
      split_ifs at h6 ⊢ <;> simp_all
      omega
  | @publish r e =>
    refine ⟨by simp, fun e' he => ?_⟩
    obtain rfl := Option.some.inj he
    exact (hI e rfl).silent fun c hc => List.mem_singleton.1 hc ▸ ⟨rfl, rfl, rfl, rfl, rfl, rfl⟩
  | @published now e =>
    refine ⟨by simp, fun e' he => ?_⟩
    obtain rfl := Option.some.inj he
    obtain ⟨h1, h2, h3, h4, h5, h6⟩ := hI e rfl
    refine ⟨?_, ?_, ?_, ?_, ?_, ?_⟩
    · simp [h1, OutboxCall.inserts]
    · simp [h2, OutboxCall.claimedAt]
    · simp [OutboxCall.publishedAt]
    · simp [h4, OutboxCall.failure]
    · simp [h5, OutboxCall.failure]
    · simpa [OutboxCall.claims, OutboxCall.reclaims] using h6
  | @failed m e =>
    refine ⟨by simp, fun e' he => ?_⟩
    obtain rfl := Option.some.inj he
    obtain ⟨h1, h2, h3, h4, h5, h6⟩ := hI e rfl
    refine ⟨?_, ?_, ?_, ?_, ?_, ?_⟩
    · simp [h1, OutboxCall.inserts]
    · simp [OutboxCall.claimedAt]
    · simp [h3, OutboxCall.publishedAt]
    · simp [h4, OutboxCall.failure]
    · simp [OutboxCall.failure]
    · have hc : List.countP (OutboxCall.claims k) [.failed k m] = 0 := by
        simp [OutboxCall.claims]
      have hr : List.countP (OutboxCall.reclaims k) [.failed k m] = 0 := by
        simp [OutboxCall.reclaims]
      rw [List.countP_append, List.countP_append, hc, hr]
      split_ifs at h6 ⊢ <;> simp_all <;> omega

/-- Nothing has been said of an event that is not there. -/
structure Noted (l : List OutboxCall) (s : Dispatch) : Prop where
  known : s.outbox.Known
  absent : ∀ k, s.outbox.events.get k = none → ∀ c ∈ l, Apart k c
  row : ∀ k e, s.outbox.events.get k = some e → RowNoted l k e

theorem Noted.step {a : DispatchAction} (hI : Noted l s) (h : s.step a = some t) :
    Noted (l ++ s.calls a t) t := by
  have hmove := fun k => (row_move hI.known h k).noted (hI.absent k) (hI.row k)
  exact ⟨known_step hI.known h, fun k => (hmove k).1, fun k => (hmove k).2⟩

/-! ## What a run publishes -/

/-- The run that made the claim or the publish. -/
def OutboxCall.run : OutboxCall → ℕ
  | .claimed r _ _ _ | .publish r _ => r
  | _ => 0

/-- How often a run is still to publish event `k`. -/
def owes (k : Uuid) : Option DispatchRun → ℕ
  | none => 0
  | some run => ((if run.phase = .publish then run.events else run.rest).map (·.id)).count k

/-- The claims and the publishes of event `k` by run `r`. -/
def claimedBy (l : List OutboxCall) (r : ℕ) (k : Uuid) : ℕ :=
  l.countP fun c => c.claims k && c.run = r

def publishedBy (l : List OutboxCall) (r : ℕ) (k : Uuid) : ℕ :=
  l.countP fun c => c.publishes k && c.run = r

/-- A run publishes an event once for a claim of its own. -/
def Owing (l : List OutboxCall) (s : Dispatch) : Prop :=
  ∀ r k, publishedBy l r k + owes k (s.outbox.runs r) ≤ claimedBy l r k

theorem owes_next (run : DispatchRun) : owes k run.next = (run.rest.map (·.id)).count k := by
  unfold DispatchRun.next
  rcases run.rest with _ | ⟨e, es⟩
  · rfl
  · rfl

theorem owes_start {events : List OutboxEvent} (h : (events.map (·.id)).Nodup) :
    owes k (DispatchRun.start events) = if k ∈ events.map (·.id) then 1 else 0 := by
  rw [← h.count]
  rcases events with _ | ⟨e, es⟩
  · rfl
  · rfl

theorem owes_of_phase {run : DispatchRun} (h : run.phase ≠ .publish) :
    owes k (some run) = (run.rest.map (·.id)).count k := by
  simp only [owes, h, if_false]

theorem owes_publish {run : DispatchRun} (h : run.phase = .publish) :
    owes k (some run) = (run.rest.map (·.id)).count k + if run.event.id = k then 1 else 0 := by
  simp only [owes, h, if_true, DispatchRun.events, List.map_cons, List.count_cons, beq_iff_eq]

theorem publishedBy_mark {r : ℕ} {a : OutboxAction} (ha : (markReply a).isSome = true) :
    publishedBy (s.callsBy r a) r k = 0 := by
  refine List.countP_eq_zero.2 fun c hc => ?_
  cases a with
  | markPublished reply err =>
    simp only [callsBy] at hc
    split_ifs at hc
    · obtain ⟨run, -, rfl⟩ := Option.map_eq_some_iff.1 (Option.mem_toList.1 hc)
      simp [OutboxCall.publishes]
    · simp at hc
  | markFailed reply =>
    simp only [callsBy] at hc
    split_ifs at hc
    · split at hc
      · rw [List.mem_singleton.1 hc]
        simp [OutboxCall.publishes]
      · simp at hc
    · simp at hc
  | _ => simp [markReply] at ha

/-- What a step adds to the publishes and the claims of its run. -/
theorem owes_step {r : ℕ} {a : OutboxAction} {o : Outbox}
    (h : s.outbox.step s.now r a = some o) (k : Uuid) :
    publishedBy (s.calls (.run r a) ⟨s.now, o⟩) r k + owes k (o.runs r)
      ≤ claimedBy (s.calls (.run r a) ⟨s.now, o⟩) r k + owes k (s.outbox.runs r) := by
  have hclaimed : ∀ ids stale, claimedBy [.claimed r ids stale s.now] r k
      = if k ∈ ids then 1 else 0 := fun ids stale => by
    simp [claimedBy, OutboxCall.claims, OutboxCall.run, List.countP_cons]
  have hsent : ∀ id, publishedBy [.publish r id] r k = if id = k then 1 else 0 := fun id => by
    simp [publishedBy, OutboxCall.publishes, OutboxCall.run, List.countP_cons]
  simp only [calls]
  cases Outbox.step_cases h with
  | claimed hr =>
    simp only [Function.update_self, hr, owes_start nodup_claimed, callsBy, Reply.executed, if_true,
      hclaimed]
    exact le_of_eq (Nat.add_comm _ _)
  | claimFailed hr => exact le_rfl
  | claimLost hr =>
    simp only [hr]
    exact Nat.zero_le _
  | published hr hp =>
    simp only [callsBy, hr, Option.map_some, Option.toList_some, hsent, Outbox.setRun,
      Function.update_self, owes_publish hp]
    rw [owes_of_phase (by simp)]
    simp only
    omega
  | publishThrew hr hp =>
    simp only [callsBy, hr, Option.map_some, Option.toList_some, hsent, Outbox.setRun,
      Function.update_self, owes_publish hp]
    rw [owes_of_phase (by simp)]
    simp only
    omega
  | marked hr hp =>
    simp only [publishedBy_mark (s := s) (a := .markPublished .ok _) rfl, Function.update_self, hr]
    rw [owes_next, owes_of_phase (by rw [hp]; simp)]
    simp only
    omega
  | markThrew hr hp =>
    simp only [publishedBy_mark (s := s) (a := .markPublished _ _) rfl, Function.update_self, hr]
    rw [owes_of_phase (by simp), owes_of_phase (by rw [hp]; simp)]
    simp only
    omega
  | failed hr hp =>
    simp only [publishedBy_mark (s := s) (a := .markFailed .ok) rfl, Function.update_self, hr]
    rw [owes_next, owes_of_phase (by rw [hp]; simp)]
    simp only
    omega
  | failThrew hr hp =>
    simp only [publishedBy_mark (s := s) (a := .markFailed _) rfl, Function.update_self]
    exact Nat.zero_le _
  | crash =>
    simp only [Outbox.setRun, Function.update_self]
    exact Nat.zero_le _

theorem calls_run {r : ℕ} {a : OutboxAction} {u : Dispatch} {c : OutboxCall}
    (h : c ∈ s.calls (.run r a) u) (hp : (c.claims k || c.publishes k) = true) : c.run = r := by
  cases a <;> simp only [calls, callsBy] at h
  · split_ifs at h
    · rw [List.mem_singleton.1 h]
      rfl
    · simp at h
  · obtain ⟨run, -, rfl⟩ := Option.map_eq_some_iff.1 (Option.mem_toList.1 h)
    rfl
  · split_ifs at h
    · obtain ⟨run, -, rfl⟩ := Option.map_eq_some_iff.1 (Option.mem_toList.1 h)
      simp [OutboxCall.claims, OutboxCall.publishes] at hp
    · simp at h
  · split_ifs at h
    · split at h
      · rw [List.mem_singleton.1 h] at hp
        simp [OutboxCall.claims, OutboxCall.publishes] at hp
      · simp at h
    · simp at h
  · simp at h

theorem Owing.step {a : DispatchAction} (hI : Owing l s) (h : s.step a = some t) :
    Owing (l ++ s.calls a t) t := by
  intro q k
  have hI := hI q k
  rw [publishedBy, claimedBy, List.countP_append, List.countP_append]
  cases a with
  | clock u =>
    obtain rfl := Option.some.inj h
    exact hI
  | insert id jobId =>
    obtain ⟨-, hruns, -⟩ := step_insert h
    rw [hruns]
    exact hI
  | run r a =>
    obtain ⟨o, ho, rfl⟩ := Option.map_eq_some_iff.1 h
    by_cases hqr : q = r
    · subst hqr
      have := owes_step ho k
      simp only [publishedBy, claimedBy] at this hI ⊢
      omega
    · have hz : ∀ p : OutboxCall → Bool, (∀ c, p c = true → (c.claims k || c.publishes k) = true) →
          (s.calls (.run r a) { s with outbox := o }).countP (fun c => p c && c.run = q) = 0 := by
        intro p hp
        refine List.countP_eq_zero.2 fun c hc hpc => ?_
        simp only [Bool.and_eq_true, decide_eq_true_eq] at hpc
        exact hqr (hpc.2.symm.trans (calls_run hc (hp c hpc.1)))
      rw [hz (OutboxCall.publishes k) (by simp +contextual),
        hz (OutboxCall.claims k) (by simp +contextual), Nat.add_zero, Nat.add_zero]
      rw [show o.runs q = s.outbox.runs q from Outbox.runs_of_ne ho hqr]
      exact hI

theorem noted_init : Noted [] init :=
  ⟨fun _ _ h => (by cases h), fun _ _ _ h => (List.not_mem_nil h).elim, fun _ _ h => (by cases h)⟩

theorem owing_init : Owing [] init := fun _ _ => le_rfl

theorem exec_noted {as : List DispatchAction} (h : exec step init as = some s) :
    Noted (trace step calls init as) s := by
  have hstep : ∀ l s a t, Noted l s → step s a = some t → Noted (l ++ s.calls a t) t :=
    fun _ _ _ _ hI h => hI.step h
  exact exec_trace_inv hstep noted_init h

theorem exec_owing {as : List DispatchAction} (h : exec step init as = some s) :
    Owing (trace step calls init as) s := by
  have hstep : ∀ l s a t, Owing l s → step s a = some t → Owing (l ++ s.calls a t) t :=
    fun _ _ _ _ hI h => hI.step h
  exact exec_trace_inv hstep owing_init h

theorem Owing.publishes (h : Owing l s) (k : Uuid) :
    l.countP (OutboxCall.publishes k) ≤ l.countP (OutboxCall.claims k) :=
  countP_le_of_tags OutboxCall.run fun r => (Nat.le_add_right _ _).trans (h r k)

theorem duplicates_accounted {as : List DispatchAction} (h : exec step init as = some s) :
    ∀ e ∈ s.outbox.events, Marked (trace step calls init as) e := by
  intro e he
  obtain ⟨h1, h2, h3, h4, h5, h6⟩ := (exec_noted h).row e.id e (Table.get_of_mem he)
  exact ⟨h1, h2, h3, h4, h5, (Nat.le_add_right _ _).trans h6, (exec_owing h).publishes e.id⟩

/-- A publish fails, and a run that has published crashes before its mark: the event is published
three times. -/
def thriceRun : List DispatchAction :=
  [.insert 7 3, .run 0 (.claim {} .ok),
    .run 0 (.publish (.threw (.value "down") true)), .run 0 (.markFailed .ok),
    .run 0 (.claim {} .ok), .run 0 (.publish .ok), .run 0 .crash,
    .clock (seconds 31), .run 1 (.claim {} .ok), .run 1 (.publish .ok),
    .run 1 (.markPublished .ok (.value ""))]

theorem duplicates_accounted_thriceRun : ∃ s, exec step init thriceRun = some s
    ∧ (trace step calls init thriceRun).countP (OutboxCall.publishes 7) = 3
    ∧ ∀ e ∈ s.outbox.events, Marked (trace step calls init thriceRun) e :=
  ⟨_, rfl, by decide, duplicates_accounted rfl⟩

end Dispatch

end DeadLetter
