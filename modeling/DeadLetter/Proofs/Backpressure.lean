import DeadLetter.Proofs.Api

/-!
# The backlog is bounded

The events that `createJob` added and that are unpublished, and the requests that may yet add one,
are together no more than the threshold and the most requests in flight: a request that takes to
flight has seen no more events than the threshold, and one that lands adds an event in its own
place. Nothing else adds to either, since replays add events of their own, and no event is made
unpublished again.
-/

namespace DeadLetter

open Transition

namespace Api

variable {env : ApiEnv} {s t : Api} {i : ℕ} {q : RequestState}

section Unpublished

variable {events events' : OutboxEvents} {ids : List Uuid}

def Known (events : OutboxEvents) (ids : List Uuid) : Prop := ∀ id ∈ ids, events.get id ≠ none

theorem unpublished_le (events : OutboxEvents) (ids : List Uuid) :
    unpublished events ids ≤ events.rows.countP (·.publishedAt = none) :=
  List.countP_mono_left fun _ _ h => by simp_all

theorem Known.updated (hk : Known events ids) (h : OnlyUpdated events events') :
    Known events' ids := by
  obtain ⟨p, f, hf, rfl, -⟩ := h
  intro id hid
  rw [Table.get_update, ne_eq, Option.map_eq_none_iff]
  exact hk id hid

theorem unpublished_updated (h : OnlyUpdated events events') :
    unpublished events' ids ≤ unpublished events ids := by
  obtain ⟨p, f, hf, rfl, hk⟩ := h
  simp only [unpublished, Table.update, List.countP_map]
  refine List.countP_mono_left fun e _ he => ?_
  simp only [Function.comp_apply] at he
  split_ifs at he
  · simp only [hf, Bool.and_eq_true, decide_eq_true_eq] at he ⊢
    exact ⟨(hk e).2 he.1, he.2⟩
  · exact he

variable {event : OutboxEvent} (hi : events.insert event = some events')

include hi

theorem Known.insert (hk : Known events ids) : Known events' ids := by
  intro id hid
  rw [Table.get_insert hi]
  split_ifs
  · simp
  · exact hk id hid

/-- An event that is not counted. -/
theorem unpublished_insert (hk : Known events ids) :
    unpublished events' ids = unpublished events ids := by
  obtain ⟨hn, hrows⟩ := Table.insert_eq_some.1 hi
  have hid : event.id ∉ ids := fun hid => hk _ hid hn
  simp [unpublished, hrows, hid]

/-- An event that is. -/
theorem unpublished_insert_created :
    unpublished events' (ids ++ [event.id]) ≤ unpublished events ids + 1 := by
  obtain ⟨hn, hrows⟩ := Table.insert_eq_some.1 hi
  have hrest : events.rows.countP (fun e => e.publishedAt = none && e.id ∈ ids ++ [event.id])
      = unpublished events ids := by
    refine List.countP_congr fun e he => ?_
    have : e.id ≠ event.id := fun hid => by
      rw [← hid, Table.get_of_mem he] at hn
      exact absurd hn (by simp)
    simp [this]
  rw [unpublished, hrows, List.countP_append, hrest]
  exact Nat.add_le_add_left List.countP_le_length _

end Unpublished

/-! ## What is created -/

theorem createdEvents_of_same {a : ApiAction} (h : t.server.db = s.server.db) :
    createdEvents s a t = [] := by
  unfold createdEvents
  split
  · split
    · rw [List.map_eq_nil_iff, List.filter_eq_nil_iff, h]
      intro e he
      simp [Table.get_of_mem he]
    · rfl
  · rfl

/-- The events counted for a call that adds one. -/
def countedFor (id : Uuid) : ApiCall → List Uuid
  | .createJob _ _ => [id]
  | .claimReplay _ => []

theorem createdEvents_of_insert {ok : Bool} {uuid : Uuid} {c : ApiCall} {phase : TxPhase}
    {event : OutboxEvent} (hx : s.server.txs i = some { call := c, phase })
    (h : s.server.db.outbox.events.insert event = some t.server.db.outbox.events) :
    createdEvents s (.statement i ok uuid) t = countedFor event.id c := by
  obtain ⟨hn, hrows⟩ := Table.insert_eq_some.1 h
  have hold : (s.server.db.outbox.events.rows.filter fun e =>
      s.server.db.outbox.events.get e.id = none) = [] := by
    rw [List.filter_eq_nil_iff]
    intro e he
    simp [Table.get_of_mem he]
  rw [createdEvents, hx]
  cases c with
  | createJob type payload => simp [hrows, hold, hn, countedFor]
  | claimReplay id => rfl

/-! ## Who is in flight -/

theorem afterStats_transaction {n : ℕ} {route : JobsRoute} {c : ApiCall}
    (h : env.afterStats n route = some (.transaction c)) :
    n ≤ env.backpressureThreshold ∧ ∃ type payload, c = .createJob type payload := by
  rcases route with body | id <;>
    simp only [ApiEnv.afterStats, Option.some.injEq, reduceCtorEq, ApiEnv.backpressure] at h
  split_ifs at h with hn
  refine ⟨not_lt.1 hn, ?_⟩
  unfold ApiEnv.postJob at h
  split at h
  · simp at h
  · exact ⟨_, _, (RequestPhase.transaction.inj h).symm⟩

theorem receive_not_inFlight (buckets : Buckets) (request : HttpRequest) (nowMs : ℚ) :
    RequestState.inFlight env { request, nowMs, phase := (env.receive buckets request nowMs).2 }
      = false := by
  unfold ApiEnv.receive
  split_ifs
  · rfl
  · rfl
  · simp only
    split
    · rfl
    · rfl
    · unfold ApiEnv.postReplay
      split <;> rfl

/-- A request takes to flight only with a snapshot within the threshold. -/
theorem Move.inFlight {a : ApiAction} {phase : RequestPhase} {server : Server}
    (hm : Move env s i q a phase server)
    (hf : RequestState.inFlight env { q with phase } = true) :
    q.inFlight env = true ∨ server = s.server
      ∧ (DeadLetter.getStats s.server.db).pendingOutboxEvents ≤ env.backpressureThreshold := by
  cases hm with
  | snapshot hp =>
    refine .inr ⟨rfl, ?_⟩
    simp only [RequestState.inFlight] at hf
    split at hf
    · exact (afterStats_transaction ‹_›).1
    · simp at hf
  | statsThrew => simp [RequestState.inFlight] at hf
  | resumed hr =>
    refine .inl ?_
    rcases hp : q.phase with _ | n | _ | ⟨c, result⟩ | _ | _ <;>
      simp only [hp, resume, Option.some.injEq, reduceCtorEq] at hr
    · cases opens_afterStats hr with
      | transaction => simp only [RequestState.inFlight, hp, hr]
      | _ => simp [RequestState.inFlight] at hf
    · subst hr
      rcases result with _ | _ | job <;> cases c <;> simp [RequestState.inFlight, afterCall] at hf
  | @statement c _ _ _ hp =>
    refine .inl ?_
    unfold phaseOf at hf
    split at hf
    · simp [RequestState.inFlight] at hf
    · simpa only [RequestState.inFlight, hp] using hf
  | read => simp [RequestState.inFlight] at hf

/-! ## The bound -/

/-- The events counted and the requests in flight are within the bound, and no event to come is one
already counted. -/
structure Bounded (env : ApiEnv) (K : ℕ) (ids : List Uuid) (s : Api) : Prop where
  bound : unpublished s.server.db.outbox.events ids + s.inFlight env
    ≤ env.backpressureThreshold + K
  known : Known s.server.db.outbox.events ids

section Bounded

variable {K : ℕ} {ids : List Uuid}

theorem Bounded.keep (hB : Bounded env K ids s)
    (he : OnlyUpdated s.server.db.outbox.events t.server.db.outbox.events)
    (hf : t.inFlight env ≤ s.inFlight env) : Bounded env K ids t := by
  refine ⟨?_, hB.known.updated he⟩
  calc unpublished t.server.db.outbox.events ids + t.inFlight env
      ≤ unpublished s.server.db.outbox.events ids + s.inFlight env :=
        Nat.add_le_add (unpublished_updated he) hf
    _ ≤ env.backpressureThreshold + K := hB.bound

/-- A request takes to flight: what it has seen is within the threshold. -/
theorem Bounded.takeOff (hk : Known s.server.db.outbox.events ids)
    (he : t.server.db = s.server.db)
    (hn : (DeadLetter.getStats s.server.db).pendingOutboxEvents ≤ env.backpressureThreshold)
    (hK : t.inFlight env ≤ K) : Bounded env K ids t := by
  rw [← he] at hk hn
  exact ⟨Nat.add_le_add ((unpublished_le _ ids).trans hn) hK, hk⟩

/-- A call commits: an event counted is in the place of its request. -/
theorem Bounded.land (hB : Bounded env K ids s) {event : OutboxEvent} {c : ApiCall}
    (he : s.server.db.outbox.events.insert event = some t.server.db.outbox.events)
    (hf : t.inFlight env + (countedFor event.id c).length ≤ s.inFlight env) :
    Bounded env K (ids ++ countedFor event.id c) t := by
  have hb := hB.bound
  cases c with
  | createJob type payload =>
    have hle : unpublished t.server.db.outbox.events (ids ++ countedFor event.id
        (.createJob type payload)) ≤ _ := unpublished_insert_created he
    simp only [countedFor, List.length_singleton] at hf
    refine ⟨by omega, fun id hid => ?_⟩
    rcases List.mem_append.1 hid with hid | hid
    · exact hB.known.insert he id hid
    · rw [List.mem_singleton.1 hid, Table.get_insert he]
      simp
  | claimReplay id =>
    rw [countedFor, List.append_nil]
    refine ⟨?_, hB.known.insert he⟩
    rw [unpublished_insert he hB.known]
    simp only [countedFor, List.length_nil] at hf
    omega

theorem Bounded.move {l : List Effect} {a : ApiAction} {phase : RequestPhase} {server : Server}
    (hI : Inv env l s) (hB : Bounded env K ids s) (hq : s.requests[i]? = some q)
    (hm : Move env s i q a phase server) (ht : t = { s.setPhase i q phase with server })
    (hK : t.inFlight env ≤ K) : Bounded env K (ids ++ createdEvents s a t) t := by
  have hcount : t.inFlight env + (if q.inFlight env then 1 else 0)
      = s.inFlight env + if RequestState.inFlight env { q with phase } then 1 else 0 :=
    ht ▸ countP_setPhase hq phase _
  have hserver : t.server = server := ht ▸ rfl
  rcases (hm.serves (hI.serves i q hq)).2 with ⟨hdb, -⟩ | ⟨ok, uuid, c, job, event, rfl, hp, rfl,
    hx, hi⟩
  · rw [← hserver] at hdb
    rw [createdEvents_of_same hdb, List.append_nil]
    by_cases hf : RequestState.inFlight env { q with phase } = true
    · rcases hm.inFlight hf with hq' | ⟨-, hn⟩
      · rw [if_pos hf, if_pos hq'] at hcount
        exact hB.keep (hdb ▸ onlyUpdated_refl _) (by omega)
      · exact .takeOff hB.known hdb hn hK
    · rw [if_neg hf] at hcount
      exact hB.keep (hdb ▸ onlyUpdated_refl _) (by omega)
  · obtain ⟨-, he, -⟩ := Server.install_eq_some hi
    rw [← hserver] at he
    rw [createdEvents_of_insert hx he]
    refine hB.land he ?_
    simp only [RequestState.inFlight, hp] at hcount
    cases c <;> simp only [countedFor, List.length_singleton, List.length_nil, Bool.false_eq_true,
      if_true, if_false] at hcount ⊢ <;> omega

theorem Bounded.step {l : List Effect} {a : ApiAction} (hI : Inv env l s)
    (hB : Bounded env K ids s) (hK : t.inFlight env ≤ K) (h : step env s a = some t) :
    Bounded env K (ids ++ createdEvents s a t) t := by
  cases step_cases h with
  | @received request nowMs server hs =>
    have hdb := hI.db_of_receive hs
    rw [createdEvents_of_same hdb, List.append_nil]
    refine hB.keep (by simp only [hdb]; exact onlyUpdated_refl _) ?_
    simp only [Api.inFlight, List.countP_append, List.countP_singleton, receive_not_inFlight,
      Bool.false_eq_true, if_false, Nat.add_zero, le_refl]
  | moved hq hm => exact hB.move hI hq hm rfl hK
  | @ran _ b server ha hs =>
    have hdb : OnlyUpdated s.server.db.outbox.events server.db.outbox.events := by
      cases a <;> simp only [ApiAction.other, Option.some.injEq, reduceCtorEq] at ha <;>
        subst ha <;> cases Server.step_cases hs
      · exact onlyUpdated_refl _
      · rename_i hw
        simp only [Db.outbox_of_call hw]
        exact onlyUpdated_refl _
      · rename_i hd
        obtain ⟨outbox, ho, rfl⟩ := Option.map_eq_some_iff.1 hd
        exact Outbox.onlyUpdated_of_step ho
    have hl : createdEvents s a { s with server } = [] := by
      cases a <;> simp only [ApiAction.other, reduceCtorEq] at ha <;> rfl
    rw [hl, List.append_nil]
    exact hB.keep hdb le_rfl

end Bounded

/-- In every run, with at most `K` requests in flight at once, of requests, replays and steps of the
worker and the dispatcher, at most the threshold and `K` of the events that `createJob` added in it
are unpublished. -/
theorem backlog_bounded {now : ℤ} {db : Db} {buckets : Buckets} {as : List ApiAction} {K : ℕ}
    (hK : Steps (step env) (fun _ _ t => t.inFlight env ≤ K) (start now db buckets) as)
    (h : exec (step env) (start now db buckets) as = some s) :
    unpublished s.server.db.outbox.events
        (trace (step env) createdEvents (start now db buckets) as)
      ≤ env.backpressureThreshold + K := by
  let I := fun ids s => (∃ l, Inv env l s) ∧ Bounded env K ids s
  have hstep : ∀ ids s a t, I ids s → t.inFlight env ≤ K → step env s a = some t →
      I (ids ++ createdEvents s a t) t :=
    fun ids s a t ⟨⟨l, hI⟩, hB⟩ hK h => ⟨⟨_, hI.step h⟩, hB.step hI hK h⟩
  have h₀ : I [] (start now db buckets) :=
    ⟨⟨[], inv_start now db buckets⟩, by simp [unpublished, Api.inFlight, start], by simp [Known]⟩
  obtain ⟨-, hb, -⟩ := exec_trace_inv_of_steps hstep h₀ hK h
  omega

/-- Two jobs are created, each having seen none pending, with a threshold of 0. -/
def racingPosts : List ApiAction :=
  [.receive (post (some "key") (.create (some ⟨.string "email", .object []⟩))) 0,
    .receive (post (some "key") (.create (some ⟨.string "sms", .object []⟩))) 0,
    .getStats 0 true, .getStats 1 true, .resume 0, .resume 1, .statement 0 true 0,
    .statement 1 true 0, .statement 0 true 0, .statement 1 true 0, .statement 0 true 5,
    .statement 1 true 6, .statement 0 true 7, .statement 1 true 8, .statement 0 true 0,
    .statement 1 true 0]

theorem backlog_bounded_racingPosts : ∃ s,
    exec (step devEnv) (start 0 Db.init fun _ => none) racingPosts = some s
      ∧ unpublished s.server.db.outbox.events
          (trace (step devEnv) createdEvents (start 0 Db.init fun _ => none) racingPosts) = 2
      ∧ unpublished s.server.db.outbox.events
          (trace (step devEnv) createdEvents (start 0 Db.init fun _ => none) racingPosts)
        ≤ devEnv.backpressureThreshold + 2 := by
  have hrun : (exec (step devEnv) (start 0 Db.init fun _ => none) racingPosts).map
      (fun s => unpublished s.server.db.outbox.events
        (trace (step devEnv) createdEvents (start 0 Db.init fun _ => none) racingPosts))
      = some 2 := by decide +kernel
  obtain ⟨s, hs, hu⟩ := Option.map_eq_some_iff.1 hrun
  exact ⟨s, hs, hu, backlog_bounded (by decide +kernel) hs⟩

end Api

end DeadLetter
