import DeadLetter.Batch

/-!
# What one event's failure does to its batch

The loop goes on past an event unless the event fails and cannot be marked so, and the events after
that one are not tried. A run of the outbox that is not disturbed makes the calls of the loop.
-/

namespace DeadLetter

open Transition

/-- No event that fails has its mark fail too. -/
def Markable (claimed : List (OutboxEvent × EventCalls)) : Prop :=
  ∀ e ∈ claimed, e.2.succeeds = false → e.2.markFailed = .ok

theorem EventCalls.succeeds_iff {calls : EventCalls} :
    calls.succeeds = true ↔ calls.thrown = none := by
  unfold EventCalls.succeeds EventCalls.thrown
  rcases calls.publish with _ | ⟨err, b⟩ <;> rcases calls.markPublished with _ | _ | _ <;> simp

theorem publishes_tried (event : OutboxEvent) (calls : EventCalls) (made : List BatchCall) :
    publishes (calls.tried event ++ made) = event.jobId :: publishes made := by
  unfold EventCalls.tried
  split_ifs <;> rfl

theorem dispatchEvents_of_markable {attempted : ℕ} :
    ∀ {claimed : List (OutboxEvent × EventCalls)} {p f : ℕ}, Markable claimed →
      publishes (dispatchEvents attempted p f claimed).1 = claimed.map (·.1.jobId)
        ∧ ∃ p' f', (dispatchEvents attempted p f claimed).2 = some ⟨attempted, p', f'⟩
          ∧ p' = p + claimed.countP (·.2.succeeds) ∧ p' + f' = p + f + claimed.length
  | [], p, f, _ => ⟨rfl, p, f, rfl, rfl, rfl⟩
  | (event, calls) :: rest, p, f, h => by
    have hrest : Markable rest := fun e he => h e (List.mem_cons_of_mem _ he)
    rcases ht : calls.thrown with _ | err
    · have hs := EventCalls.succeeds_iff.2 ht
      have hc : ((event, calls) :: rest).countP (·.2.succeeds) = rest.countP (·.2.succeeds) + 1 :=
        List.countP_cons_of_pos hs
      obtain ⟨hp, p', f', hr, hp', hf'⟩ :=
        @dispatchEvents_of_markable attempted rest (p + 1) f hrest
      simp only [dispatchEvents, ht, publishes_tried, hp, hc, List.map_cons, List.length_cons,
        true_and]
      exact ⟨p', f', hr, by omega, by omega⟩
    · have hs : ¬ calls.succeeds = true := by rw [EventCalls.succeeds_iff, ht]; simp
      have hc : ((event, calls) :: rest).countP (·.2.succeeds) = rest.countP (·.2.succeeds) :=
        List.countP_cons_of_neg hs
      have hm : calls.markFailed = .ok :=
        h (event, calls) (List.mem_cons_self ..) (by simpa using hs)
      obtain ⟨hp, p', f', hr, hp', hf'⟩ :=
        @dispatchEvents_of_markable attempted rest p (f + 1) hrest
      simp only [dispatchEvents, ht, hm, if_true, publishes_tried, hc, List.map_cons,
        List.length_cons]
      exact ⟨congrArg _ hp, p', f', hr, hp', by omega⟩

theorem dispatchEvents_of_not_markable {attempted : ℕ} :
    ∀ {claimed : List (OutboxEvent × EventCalls)} {p f : ℕ}, ¬ Markable claimed →
      (dispatchEvents attempted p f claimed).2 = none
  | [], _, _, h => absurd (fun e he => by simp at he) h
  | (event, calls) :: rest, p, f, h => by
    rcases ht : calls.thrown with _ | err
    · simp only [dispatchEvents, ht]
      refine dispatchEvents_of_not_markable fun hrest => h ?_
      intro e he hs
      rcases List.mem_cons.1 he with rfl | he
      · rw [EventCalls.succeeds_iff.2 ht] at hs
        exact absurd hs (by simp)
      · exact hrest e he hs
    · simp only [dispatchEvents, ht]
      split_ifs with hm
      · refine dispatchEvents_of_not_markable fun hrest => h ?_
        intro e he hs
        rcases List.mem_cons.1 he with rfl | he
        · exact hm
        · exact hrest e he hs
      · rfl

/-- A batch is contained exactly when no event that fails has its mark fail too: what
`markOutboxFailed` throws in the `catch` ends the loop. -/
theorem batch_contained_iff (claimed : List (OutboxEvent × EventCalls)) :
    Contained claimed ↔ Markable claimed := by
  constructor
  · rintro ⟨-, counts, hr, -⟩
    by_contra h
    rw [dispatchOutboxBatch, dispatchEvents_of_not_markable h] at hr
    simp at hr
  · intro h
    obtain ⟨hp, p, f, hr, hp', hf⟩ := @dispatchEvents_of_markable claimed.length claimed 0 0 h
    exact ⟨hp, _, hr, rfl, by simp only; omega, by simp only; omega⟩

/-- A batch of two: the first is neither published nor marked, and so the second is not tried. -/
def unmarkable : List (OutboxEvent × EventCalls) :=
  [({ id := 7, jobId := 3, createdAt := 0 },
      { publish := .threw (.value "no channel") false, markPublished := .ok, markError := .value ""
        markFailed := .failed }),
    ({ id := 8, jobId := 4, createdAt := 1 },
      { publish := .ok, markPublished := .ok, markError := .value "", markFailed := .ok })]

theorem batch_not_contained : dispatchOutboxBatch unmarkable
      = ([.publishJobCreated 3, .markOutboxFailed 7 "no channel"], none)
    ∧ ¬ Contained unmarkable := by
  have hd : dispatchOutboxBatch unmarkable
      = ([.publishJobCreated 3, .markOutboxFailed 7 "no channel"], none) := by decide
  refine ⟨hd, ?_⟩
  rintro ⟨-, counts, hr, -⟩
  rw [hd] at hr
  simp at hr

/-! ## The loop as a run of the outbox -/

section Run

variable {now : ℤ} {r : ℕ}

/-- Where the calls for its event leave a run: at the next, or over where the mark throws. -/
def DispatchRun.after (run : DispatchRun) (calls : EventCalls) : Option DispatchRun :=
  match calls.thrown, calls.markFailed with
  | none, _ => { run with published := run.published + 1 }.next
  | some _, .ok => { run with failed := run.failed + 1 }.next
  | some _, _ => none

theorem exec_actions {s : Outbox} {run : DispatchRun} (calls : EventCalls)
    (hr : s.runs r = some run) (hp : run.phase = .publish) : ∃ t,
      exec (fun s a => Outbox.step now s r a) s calls.actions = some t
        ∧ trace (fun s a => Outbox.step now s r a) (Outbox.made r) s calls.actions
          = calls.tried run.event ++ (calls.thrown.map fun err =>
            .markOutboxFailed run.event.id err.message).toList
        ∧ t.runs r = run.after calls := by
  rcases calls with ⟨_ | ⟨err, b⟩, mark, markErr, fail⟩
  · cases mark <;> cases fail <;>
      simp [EventCalls.actions, EventCalls.thrown, EventCalls.tried, exec, trace, Outbox.step,
        Outbox.made, Outbox.setRun, hr, hp, DispatchRun.after, DispatchRun.next]
  · cases fail <;>
      simp [EventCalls.actions, EventCalls.thrown, EventCalls.tried, exec, trace, Outbox.step,
        Outbox.made, Outbox.setRun, hr, hp, DispatchRun.after, DispatchRun.next]

/-- A run about to take the first of these events. -/
def DispatchRun.resume (attempted published failed : ℕ) : List OutboxEvent → Option DispatchRun
  | [] => none
  | event :: rest => some { phase := .publish, event, rest, attempted, published, failed }

theorem DispatchRun.next_eq (run : DispatchRun) :
    run.next = resume run.attempted run.published run.failed run.rest := by
  unfold DispatchRun.next
  cases run.rest <;> rfl

theorem exec_dispatchEvents {attempted : ℕ} : ∀ {claimed : List (OutboxEvent × EventCalls)}
    {p f : ℕ} {s : Outbox}, s.runs r = DispatchRun.resume attempted p f (claimed.map (·.1)) →
      ∃ t, exec (fun s a => Outbox.step now s r a) s (batchActions claimed) = some t
        ∧ t.runs r = none
        ∧ trace (fun s a => Outbox.step now s r a) (Outbox.made r) s (batchActions claimed)
          = (dispatchEvents attempted p f claimed).1
  | [], p, f, s, h => ⟨s, rfl, h, rfl⟩
  | (event, calls) :: rest, p, f, s, h => by
    obtain ⟨t, ht, hm, hr⟩ := @exec_actions now r s _ calls h rfl
    -- where the loop goes on, it is with the rest of the events and one more counted
    have hrest : ∀ {p' f'}, t.runs r = DispatchRun.resume attempted p' f' (rest.map (·.1)) →
        ∃ u, exec (fun s a => Outbox.step now s r a) s (calls.actions ++ batchActions rest) = some u
          ∧ u.runs r = none ∧ trace (fun s a => Outbox.step now s r a) (Outbox.made r) s
            (calls.actions ++ batchActions rest)
              = calls.tried event ++ (calls.thrown.map fun err =>
                BatchCall.markOutboxFailed event.id err.message).toList
                  ++ (dispatchEvents attempted p' f' rest).1 := by
      intro p' f' hn
      obtain ⟨u, hu, hd, hm'⟩ := exec_dispatchEvents hn
      exact ⟨u, exec_append.2 ⟨t, ht, hu⟩, hd, by rw [trace_append ht, hm, hm']⟩
    rcases hth : calls.thrown with _ | err
    · simp only [DispatchRun.after, hth, DispatchRun.next_eq] at hr
      have := hrest hr
      simpa only [batchActions, dispatchEvents, hth, ne_eq, not_true_eq_false, false_and, if_false,
        Option.map_none, Option.toList_none, List.append_nil] using this
    · cases hf : calls.markFailed with
      | ok =>
        simp only [DispatchRun.after, hth, hf, DispatchRun.next_eq] at hr
        have := hrest hr
        simpa [batchActions, dispatchEvents, hth, hf] using this
      | _ =>
        refine ⟨t, ?_, by simpa only [DispatchRun.after, hth, hf] using hr, ?_⟩
        · simpa [batchActions, hth, hf] using ht
        · simpa [batchActions, dispatchEvents, hth, hf] using hm

/-- A run of the outbox that starts on the events claimed makes the calls of the batch. -/
theorem outbox_makes_batch {claimed : List (OutboxEvent × EventCalls)} {s : Outbox}
    (h : s.runs r = DispatchRun.start (claimed.map (·.1))) :
    ∃ t, exec (fun s a => Outbox.step now s r a) s (batchActions claimed) = some t
      ∧ t.runs r = none
      ∧ trace (fun s a => Outbox.step now s r a) (Outbox.made r) s (batchActions claimed)
        = (dispatchOutboxBatch claimed).1 := by
  refine exec_dispatchEvents (h.trans ?_)
  cases claimed with
  | nil => rfl
  | cons e es => simp [DispatchRun.start, DispatchRun.resume]

end Run

end DeadLetter
