import DeadLetter.Relay
import DeadLetter.Proofs.Dispatch

/-!
# Published is not delivered

`published_at` is set when the publish has returned, which says that the message is in a buffer. So
a published event is one the broker has accepted exactly in the runs in which a mark comes after
the flush, and not before it, or after the connection was lost with the message in its buffer.
-/

namespace DeadLetter

open Transition

namespace Dispatch

variable {s t : Dispatch}

theorem published_of_step {a : DispatchAction} (h : s.step a = some t) {e' : OutboxEvent}
    (he : e' ∈ t.outbox.events) (hp : e'.publishedAt ≠ none) :
    (∃ e ∈ s.outbox.events, e.jobId = e'.jobId ∧ e.publishedAt ≠ none)
      ∨ ∃ r reply err run e, a = .run r (.markPublished reply err) ∧ reply.executed = true
        ∧ s.outbox.runs r = some run ∧ s.outbox.events.get run.event.id = some e
        ∧ e.jobId = e'.jobId := by
  cases a with
  | clock u =>
    obtain rfl := Option.some.inj h
    exact .inl ⟨e', he, rfl, hp⟩
  | insert id jobId =>
    rcases (Table.mem_insert (step_insert h).2.2).1 he with he | rfl
    · exact .inl ⟨e', he, rfl, hp⟩
    · exact absurd rfl hp
  | run r a =>
    obtain ⟨e, he₀, hr⟩ := Outbox.get_of_step (step_run h).2 (Table.get_of_mem he)
    have hmem := Table.mem_of_get he₀
    cases hr with
    | same => exact .inl ⟨_, hmem, rfl, hp⟩
    | claimed => exact .inl ⟨e, hmem, rfl, hp⟩
    | failed => exact .inl ⟨e, hmem, rfl, hp⟩
    | published ha hx hs _ hid =>
      exact .inr ⟨r, _, _, _, e, by rw [ha], hx, hs, by rw [← hid]; exact he₀, rfl⟩

end Dispatch

namespace Relay

variable {s t : Relay}

theorem known_init : init.dispatch.outbox.Known := fun _ _ h => by
  simp [init, Dispatch.init] at h

theorem step_dispatch {c : ℕ} {a : DispatchAction} (h : s.step (.dispatch c a) = some t) :
    s.dispatch.step a = some t.dispatch ∧ (t.wire = s.wire
      ∨ ∃ jobId, s.publishes a = some jobId ∧ t.wire = s.wire.write c jobId) := by
  obtain ⟨d, hd, rfl⟩ := Option.map_eq_some_iff.1 h
  refine ⟨hd, ?_⟩
  rcases s.publishes a with _ | jobId
  · exact .inl rfl
  · exact .inr ⟨jobId, rfl, rfl⟩

theorem known_step {a : RelayAction} (hI : s.dispatch.outbox.Known) (h : s.step a = some t) :
    t.dispatch.outbox.Known := by
  cases a with
  | dispatch c a => exact Dispatch.known_step hI (step_dispatch h).1
  | flush c =>
    obtain ⟨w, -, rfl⟩ := Option.map_eq_some_iff.1 h
    exact hI
  | lose c =>
    obtain rfl := Option.some.inj h
    exact hI

/-- A step does to the connections what it shows. -/
theorem wire_of_step {a : RelayAction} (h : s.step a = some t) :
    exec Wire.step s.wire (s.wired a t) = some t.wire := by
  cases a with
  | dispatch c a =>
    obtain ⟨d, -, rfl⟩ := Option.map_eq_some_iff.1 h
    simp only [wired]
    cases s.publishes a <;> rfl
  | flush c =>
    obtain ⟨w, hw, rfl⟩ := Option.map_eq_some_iff.1 h
    exact exec_singleton.2 hw
  | lose c =>
    obtain rfl := Option.some.inj h
    rfl

theorem delivered_iff {as : List RelayAction} (h : exec step init as = some s) (k : Uuid) :
    s.wire.Delivered k ↔ Wire.Flushed (trace step wired init as) k := by
  have hstep : ∀ s a t, True → step s a = some t →
      exec Wire.step s.wire (wired s a t) = some t.wire := fun _ _ _ _ => wire_of_step
  have hw : exec Wire.step init.wire (trace step wired init as) = some s.wire :=
    exec_trace_refines Relay.wire (fun _ _ _ _ _ => trivial) hstep trivial h
  exact Wire.delivered_iff_flushed hw

theorem PublishedDelivered.step {a : RelayAction} (hP : s.PublishedDelivered)
    (hI : s.dispatch.outbox.Known) (hM : ∀ e ∈ s.marks a, s.wire.Delivered e.jobId)
    (h : s.step a = some t) : t.PublishedDelivered := by
  intro e' he hp
  refine Wire.Delivered.exec ?_ (wire_of_step h)
  cases a with
  | dispatch c a =>
    rcases Dispatch.published_of_step (step_dispatch h).1 he hp with ⟨e, he, hj, hpe⟩
      | ⟨r, reply, err, run, e, rfl, hx, hr, hrow, hj⟩
    · exact hj ▸ hP e he hpe
    · obtain ⟨e₁, he₁, hj₁⟩ := hI r run hr run.event (List.mem_cons_self ..)
      obtain rfl : e₁ = e := Option.some.inj (he₁.symm.trans hrow)
      rw [← hj, hj₁]
      exact hM run.event (by simp [marks, hx, hr])
  | flush c =>
    obtain ⟨w, -, rfl⟩ := Option.map_eq_some_iff.1 h
    exact hP e' he hp
  | lose c =>
    obtain rfl := Option.some.inj h
    exact hP e' he hp

/-- What a mark leaves published was delivered before. -/
theorem delivered_of_marks {a : RelayAction} (hI : s.dispatch.outbox.Known)
    (h : s.step a = some t) (hP : t.PublishedDelivered) :
    ∀ e ∈ s.marks a, s.wire.Delivered e.jobId := by
  intro e he
  unfold marks at he
  split at he
  · rename_i c r reply err
    split_ifs at he with hx
    swap
    · simp at he
    obtain ⟨run, hr, rfl⟩ := Option.map_eq_some_iff.1 he
    obtain ⟨e, hrow, hj⟩ := hI r run hr run.event (List.mem_cons_self ..)
    have hstep := (Dispatch.step_run (step_dispatch h).1).2
    have hmarked : t.dispatch.outbox.events.get run.event.id
        = some { e with publishedAt := some s.dispatch.now } := by
      rw [Outbox.events_of_markPublished hstep hx hr, get_markOutboxPublished, hrow]
      simp
    have hd := hP _ (Table.mem_of_get hmarked) (by simp)
    rw [show e.jobId = run.event.jobId from hj] at hd
    have hw : t.wire = s.wire := by
      rcases (step_dispatch h).2 with hw | ⟨jobId, hp, -⟩
      · exact hw
      · simp [publishes] at hp
    exact hw ▸ hd
  · simp at he

/-- Published events are accepted by the broker in every state of a run, just where each of its
marks comes after the flush of a message for its job. -/
theorem published_delivered_iff (as : List RelayAction) :
    (∀ bs s, bs <+: as → exec step init bs = some s → s.PublishedDelivered)
      ↔ MarksFlushed as := by
  have hK : ∀ {bs s}, exec step init bs = some s → s.dispatch.outbox.Known := fun h =>
    exec_inv (fun _ _ _ => known_step) known_init h
  constructor
  · intro hP bs a cs s t has hs ht e he
    have hPt : t.PublishedDelivered :=
      hP (bs ++ [a]) t ⟨cs, by simp [has]⟩ (exec_append.2 ⟨s, hs, exec_singleton.2 ht⟩)
    exact (delivered_iff hs _).1 (delivered_of_marks (hK hs) ht hPt e he)
  · rintro hM bs s ⟨cs, rfl⟩ h
    have hmarks : Steps step (fun s a _ => ∀ e ∈ s.marks a, s.wire.Delivered e.jobId) init bs := by
      refine steps_iff.2 fun ds a es hbs t u ht hu e he => (delivered_iff ht _).2 ?_
      exact hM ds a (es ++ cs) t u (by simp [hbs]) ht hu e he
    have hstep : ∀ s a t, s.dispatch.outbox.Known ∧ s.PublishedDelivered →
        (∀ e ∈ s.marks a, s.wire.Delivered e.jobId) → step s a = some t →
        t.dispatch.outbox.Known ∧ t.PublishedDelivered :=
      fun s a t hI hM h => ⟨known_step hI.1 h, hI.2.step hI.1 hM h⟩
    have hinit : init.dispatch.outbox.Known ∧ init.PublishedDelivered :=
      ⟨known_init, fun e he => by simp [init, Dispatch.init, Table.mem_def, Table.empty] at he⟩
    exact (exec_inv_of_steps hstep hinit hmarks h).2

/-- A connection lost between a publish and the mark, with the message in its buffer. -/
def lostBeforeFlush : List RelayAction :=
  [.dispatch 0 (.insert 7 1), .dispatch 0 (.run 0 (.claim {} .ok)),
    .dispatch 0 (.run 0 (.publish .ok)), .lose 0,
    .dispatch 0 (.run 0 (.markPublished .ok (.value "")))]

theorem lostBeforeFlush_undelivered : ∃ s, exec step init lostBeforeFlush = some s
    ∧ ¬ s.PublishedDelivered := by
  have hend : (exec step init lostBeforeFlush).map (fun s =>
      (s.dispatch.outbox.events.rows.map (·.publishedAt), s.wire.accepted))
        = some ([some 0], []) := by decide
  obtain ⟨s, hs, hend⟩ := Option.map_eq_some_iff.1 hend
  obtain ⟨hp, ha⟩ := Prod.mk.inj hend
  obtain ⟨e, he, hpe⟩ : ∃ e ∈ s.dispatch.outbox.events.rows, e.publishedAt = some 0 :=
    List.mem_map.1 (hp ▸ List.mem_singleton_self _)
  refine ⟨s, hs, fun h => ?_⟩
  obtain ⟨n, hn, -⟩ := h e he (by simp [hpe])
  simp [ha] at hn

end Relay

end DeadLetter
