import Mathlib.Algebra.Order.BigOperators.Group.List
import Mathlib.Algebra.Order.Group.Nat
import DeadLetter.Turns
import DeadLetter.Proofs.Republish

/-!
# No event is passed over for ever

The claims of any number of dispatchers are the turns of the events: the oldest ten that are due
are taken, those that another statement has locked being skipped. So what an event waits is what
older ones take, each of them once, once more for each failure, and once for each claim left.
-/

namespace DeadLetter

open Transition Turns

section Batch

variable {now : ℤ} {events : OutboxEvents} {n : ℕ} {scan : Scan}

theorem nodup_pendingIds : (pendingIds now events n scan).Nodup := by
  have hrows : ((events.rows.filter fun e =>
      e.claimable now && !scan.locked e.id).map (·.id)).Nodup :=
    events.nodup.sublist (List.filter_sublist.map _)
  have hmet := ((List.perm_insertionSort (fun a b : OutboxEvent => scan.met a.id ≤ scan.met b.id)
    _).map (·.id)).nodup_iff.2 hrows
  have hsort := ((List.perm_insertionSort (fun a b : OutboxEvent => a.createdAt ≤ b.createdAt)
    _).map (·.id)).nodup_iff.2 hmet
  exact hsort.sublist ((List.take_sublist n _).map _)

/-- Where a row that is due and not locked is left, the batch is full of rows no younger. -/
theorem pendingIds_of_passed {e : OutboxEvent} (he : e ∈ events) (hc : e.claimable now = true)
    (hl : scan.locked e.id = false) (hn : e.id ∉ pendingIds now events n scan) :
    (pendingIds now events n scan).length = n
      ∧ ∀ k ∈ pendingIds now events n scan, k ≠ e.id
        ∧ ∃ e' ∈ events, e'.id = k ∧ e'.createdAt ≤ e.createdAt := by
  have : Std.Total fun a b : OutboxEvent => a.createdAt ≤ b.createdAt :=
    ⟨fun _ _ => le_total _ _⟩
  have : IsTrans OutboxEvent fun a b => a.createdAt ≤ b.createdAt := ⟨fun _ _ _ => le_trans⟩
  have hmem : e ∈ events.rows.filter fun e => e.claimable now && !scan.locked e.id :=
    List.mem_filter.2 ⟨he, by simp only [hc, hl, Bool.not_false, Bool.and_self]⟩
  have hmet := (List.mem_insertionSort
    fun a b : OutboxEvent => scan.met a.id ≤ scan.met b.id).2 hmem
  obtain ⟨hlen, hle⟩ := full_of_passed hmet fun hin => hn (List.mem_map_of_mem hin)
  refine ⟨by rw [pendingIds, List.length_map, hlen], fun k hk => ⟨fun hke => hn (hke ▸ hk), ?_⟩⟩
  obtain ⟨e', he', rfl⟩ := List.mem_map.1 hk
  have hrow := (List.mem_insertionSort _).1
    ((List.mem_insertionSort _).1 (List.mem_of_mem_take he'))
  exact ⟨e', (List.mem_filter.1 hrow).1, rfl, hle e' he'⟩

end Batch

namespace Dispatch

variable {s t : Dispatch} {k : Uuid}

/-- A claim that is executed is a turn of event `k`, where it is due and not locked. -/
def turn (k : Uuid) (s : Dispatch) (a : DispatchAction) (_ : Dispatch) : List (Turn Uuid) :=
  match a with
  | .run _ (.claim scan reply) =>
    if reply.executed then
      [{ waits := (s.outbox.events.get k).any fun e => e.claimable s.now && !scan.locked k
         served := (claimPendingOutboxEvents s.now s.outbox.events batchSize scan).2.map (·.id) }]
    else []
  | _ => []

/-- The other rows no younger than `e`. -/
def ahead (s : Dispatch) (e : OutboxEvent) : List OutboxEvent :=
  s.outbox.events.rows.filter fun e' => e'.id ≠ e.id && e'.createdAt ≤ e.createdAt

theorem createdAt_kept {a : DispatchAction} (h : s.step a = some t) {e : OutboxEvent}
    (he : s.outbox.events.get k = some e) :
    ∃ e', t.outbox.events.get k = some e' ∧ e'.createdAt = e.createdAt := by
  cases a with
  | clock u =>
    obtain rfl := Option.some.inj h
    exact ⟨e, he, rfl⟩
  | insert id jobId => exact ⟨e, get_of_insert (step_insert h).2.2 he, rfl⟩
  | run r a =>
    obtain ⟨e', he', hr⟩ := Outbox.row_step (step_run h).2 he
    exact ⟨e', he', by cases hr <;> rfl⟩

def IsAhead (s : Dispatch) (k i : Uuid) : Prop :=
  i ≠ k ∧ ∃ e e', s.outbox.events.get k = some e ∧ s.outbox.events.get i = some e'
    ∧ e'.createdAt ≤ e.createdAt

theorem IsAhead.step {a : DispatchAction} {i : Uuid} (hA : s.IsAhead k i)
    (h : s.step a = some t) : t.IsAhead k i := by
  obtain ⟨hne, e, e', he, he', hle⟩ := hA
  obtain ⟨f, hf, hcf⟩ := createdAt_kept h he
  obtain ⟨f', hf', hcf'⟩ := createdAt_kept h he'
  exact ⟨hne, f, f', hf, hf', by rw [hcf, hcf']; exact hle⟩

/-- A turn in which event `k` is passed over is a full batch of rows ahead of it. -/
def Ordered (k : Uuid) (l : List (Turn Uuid)) (s : Dispatch) : Prop :=
  ∀ u ∈ l, u.passes k = true →
    batchSize ≤ u.served.length ∧ u.served.Nodup ∧ ∀ i ∈ u.served, s.IsAhead k i

theorem ordered_turn (a : DispatchAction) : Ordered k (s.turn k a t) s := by
  intro u hu hp
  unfold turn at hu
  split at hu
  · rename_i r scan reply
    split_ifs at hu
    · obtain rfl := List.mem_singleton.1 hu
      simp only [Turn.passes, Turn.serves, Bool.and_eq_true, Bool.not_eq_true',
        decide_eq_false_iff_not, mem_claimed_ids] at hp
      obtain ⟨hw, hn⟩ := hp
      rcases he : s.outbox.events.get k with _ | e <;> rw [he] at hw
      · simp at hw
      obtain rfl := Table.key_of_get he
      simp only [Option.any_some, Bool.and_eq_true, Bool.not_eq_true'] at hw
      obtain ⟨hlen, hle⟩ := pendingIds_of_passed (Table.mem_of_get he) hw.1 hw.2 hn
      refine ⟨?_, nodup_claimed, fun i hi => ?_⟩
      · exact hlen.symm.le.trans (List.subperm_of_subset nodup_pendingIds fun i hi =>
          mem_claimed_ids.2 hi).length_le
      · obtain ⟨hne, e', he', rfl, hc⟩ := hle i (mem_claimed_ids.1 hi)
        exact ⟨hne, e, e', he, Table.get_of_mem he', hc⟩
    · simp at hu
  · simp at hu

theorem Ordered.step {l : List (Turn Uuid)} {a : DispatchAction} (hO : Ordered k l s)
    (h : s.step a = some t) : Ordered k (l ++ s.turn k a t) t := by
  intro u hu hp
  rcases List.mem_append.1 hu with hu | hu
  · obtain ⟨hn, hnd, hi⟩ := hO u hu hp
    exact ⟨hn, hnd, fun i his => (hi i his).step h⟩
  · obtain ⟨hn, hnd, hi⟩ := ordered_turn a u hu hp
    exact ⟨hn, hnd, fun i his => (hi i his).step h⟩

theorem serves_turn (i : Uuid) (a : DispatchAction) :
    (s.turn k a t).countP (·.serves i) = (s.calls a t).countP (OutboxCall.claims i) := by
  cases a with
  | clock u => rfl
  | insert id jobId => rfl
  | run r a =>
    cases a with
    | claim scan reply =>
      simp only [turn, calls, callsBy]
      split_ifs
      · simp [Turn.serves, OutboxCall.claims]
      · rfl
    | publish reply =>
      simp only [turn, calls, callsBy]
      rcases s.outbox.runs r with _ | run <;> rfl
    | markPublished reply err =>
      simp only [turn, calls, callsBy]
      split_ifs
      · rcases s.outbox.runs r with _ | run <;> rfl
      · rfl
    | markFailed reply =>
      simp only [turn, calls, callsBy]
      split_ifs
      · split <;> rfl
      · rfl
    | crash => rfl

/-- The turns serve an event as often as it is claimed. -/
theorem countP_serves (i : Uuid) : ∀ {as : List DispatchAction} {s t : Dispatch},
    exec step s as = some t → (trace step (turn k) s as).countP (·.serves i)
      = (trace step calls s as).countP (OutboxCall.claims i)
  | [], _, _, _ => rfl
  | a :: as, s, t, h => by
    obtain ⟨u, hu, h⟩ := exec_cons.1 h
    rw [trace_cons hu, trace_cons hu, List.countP_append, List.countP_append, countP_serves i h,
      serves_turn]

theorem claims_le {as : List DispatchAction} (h : exec step init as = some s) {e : OutboxEvent}
    (he : e ∈ s.outbox.events) : (trace step calls init as).countP (OutboxCall.claims e.id)
      ≤ 1 + e.attempts + (trace step calls init as).countP (OutboxCall.reclaims e.id) :=
  (Nat.le_add_right _ _).trans ((exec_noted h).row e.id e (Table.get_of_mem he)).claims

/-- In every run of any number of dispatchers, whatever fails: the claims that find an event due
and not locked are those that take it, and at most one for each ten times that the events no younger
were to be taken. -/
theorem no_event_starves {as : List DispatchAction} (h : exec step init as = some s)
    {e : OutboxEvent} (he : e ∈ s.outbox.events) :
    (trace step (turn e.id) init as).countP (·.waits)
      ≤ 1 + e.attempts + (trace step calls init as).countP (OutboxCall.reclaims e.id)
        + ((s.ahead e).map fun e' => 1 + e'.attempts
          + (trace step calls init as).countP (OutboxCall.reclaims e'.id)).sum / batchSize := by
  have hstep : ∀ l s a t, Ordered e.id l s → step s a = some t →
      Ordered e.id (l ++ s.turn e.id a t) t := fun _ _ _ _ hO h => hO.step h
  have hO := exec_trace_inv hstep (fun _ hu => (List.not_mem_nil hu).elim) h
  have hfair : Fair e.id batchSize ((s.ahead e).map (·.id)) (trace step (turn e.id) init as) := by
    intro u hu hp
    obtain ⟨hn, hnd, hA⟩ := hO u hu hp
    refine ⟨hn, hnd, fun i hi => ?_⟩
    obtain ⟨hne, f, e', hf, he', hle⟩ := hA i hi
    obtain rfl := Option.some.inj ((Table.get_of_mem he).symm.trans hf)
    obtain rfl := Table.key_of_get he'
    refine List.mem_map_of_mem (List.mem_filter.2 ⟨Table.mem_of_get he', ?_⟩)
    simp [hne, hle]
  have hturns := waits_le (by decide) hfair
  simp only [countP_serves _ h, List.map_map] at hturns
  refine hturns.trans (Nat.add_le_add (claims_le h he) (Nat.div_le_div_right ?_))
  exact List.sum_le_sum fun e' he' => claims_le h (List.mem_filter.1 he').1

/-- Two dispatchers, and one event more than a batch. -/
def elevenEvents : List DispatchAction :=
  (List.range 11).map (fun n => .insert (n + 1) 1)
    ++ [.run 0 (.claim {} .ok), .run 1 (.claim {} .ok)]

theorem no_event_starves_elevenEvents : ∃ s e, exec step init elevenEvents = some s
    ∧ s.outbox.events.get 11 = some e
    ∧ (trace step (turn 11) init elevenEvents).map (fun u => (u.waits, u.serves 11))
      = [(true, false), (true, true)]
    ∧ (s.ahead e).map (·.id) = (List.range 10).map (· + 1)
    ∧ (trace step (turn e.id) init elevenEvents).countP (·.waits)
      ≤ 1 + e.attempts + (trace step calls init elevenEvents).countP (OutboxCall.reclaims e.id)
        + ((s.ahead e).map fun e' => 1 + e'.attempts
          + (trace step calls init elevenEvents).countP (OutboxCall.reclaims e'.id)).sum
            / batchSize := by
  refine ⟨_, _, rfl, rfl, by decide +kernel, by decide +kernel, ?_⟩
  exact @no_event_starves _ elevenEvents rfl _ (Table.mem_of_get (k := 11) rfl)

end Dispatch

end DeadLetter
