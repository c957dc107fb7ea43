import DeadLetter.Delivery
import DeadLetter.Proofs.World

/-!
# What a delivery comes to

`handle_cases` says what a step of the handler can do: the channel closes, or the handler moves on
to a phase that is nearer the end, and settles the message in moving to `resolved` only, for which
the channel must be open. So every run ends within six steps, and it resolves just where the channel
stayed open and nothing was thrown outside the handler's `try` blocks.
-/

namespace DeadLetter

open Transition

def DeliveryPhase.rank : DeliveryPhase → ℕ
  | .claimJob => 5
  | .processJob _ => 4
  | .record _ => 3
  | .getJobById | .publishRetry _ | .publishDeadLetter => 2
  | .backoff => 1
  | .resolved | .rejected => 0

/-- Nothing is left to write or to publish. -/
def DeliveryPhase.done : DeliveryPhase → Bool
  | .backoff | .resolved | .rejected => true
  | _ => false

namespace Delivery

/-! ## One step -/

/-- A step that moves the handler on to a phase. -/
structure Moves (s : Delivery) (a : DeliveryAction) (phase : DeliveryPhase)
    (es : List DeliveryEvent) : Prop where
  ne_closes : a ≠ .channelCloses
  rank : phase.rank < s.phase.rank
  settles : es.countP (·.settles) = if phase = .resolved then 1 else 0
  resolved : phase = .resolved → s.channelOpen = true
  rejected : phase = .rejected → s.channelOpen = false ∨ a.unreadable = true
  unreadable : a.unreadable = true → phase = .rejected
  done : s.phase.done = true → phase.done = true ∧ ∀ e ∈ es, e.settles = true
  completed : ∀ before after, es = before ++ .wrote .markCompleted true :: after →
    phase.done = true ∧ ∀ e ∈ after, e.settles = true

/-- A step that goes on, or back off, without an event. -/
theorem Moves.quiet {s : Delivery} {a : DeliveryAction} {phase : DeliveryPhase}
    (ha : a ≠ .channelCloses) (hu : a.unreadable = false) (hr : phase.rank < s.phase.rank)
    (he : phase.ended = false) (hd : s.phase.done = false) : Moves s a phase [] := by
  have hres : phase ≠ .resolved := by rintro rfl; cases he
  have hrej : phase ≠ .rejected := by rintro rfl; cases he
  refine ⟨ha, hr, by simp [hres], fun h => absurd h hres, fun h => absurd h hrej, ?_, ?_, by simp⟩
  · simp [hu]
  · simp [hd]

/-- A write or a publish comes before what the rest of its step does. -/
theorem Moves.cons {s : Delivery} {a : DeliveryAction} {phase : DeliveryPhase}
    {es : List DeliveryEvent} {e : DeliveryEvent} (h : Moves s a phase es)
    (he : e.settles = false) (hd : s.phase.done = false)
    (hc : e = .wrote .markCompleted true → phase.done = true ∧ ∀ e ∈ es, e.settles = true) :
    Moves s a phase (e :: es) := by
  refine ⟨h.ne_closes, h.rank, ?_, h.resolved, h.rejected, h.unreadable, by simp [hd], ?_⟩
  · rw [List.countP_cons_of_neg (by simp [he]), h.settles]
  · rintro (_ | ⟨c, before⟩) after hes
    · obtain ⟨rfl, rfl⟩ := List.cons.inj hes
      exact hc rfl
    · exact h.completed before after (List.cons.inj hes).2

theorem Moves.of_ack {s : Delivery} {a : DeliveryAction} (caught : Bool)
    (ha : a ≠ .channelCloses) (hu : a.unreadable = false) (hr : 1 < s.phase.rank)
    (hd : s.phase.done = false) :
    ∃ phase es, s.ack caught = (s.go phase, es) ∧ Moves s a phase es ∧ phase.done = true
      ∧ ∀ e ∈ es, e.settles = true := by
  have hr' : 0 < s.phase.rank := by omega
  unfold ack
  split_ifs with hopen hcaught
  · exact ⟨.resolved, _, rfl, ⟨ha, hr', rfl, fun _ => hopen, by simp, by simp [hu], by simp [hd],
      fun l _ h => by cases l <;> simp at h⟩, rfl, by simp [DeliveryEvent.settles]⟩
  · exact ⟨.backoff, _, rfl, .quiet ha hu hr rfl hd, rfl, by simp⟩
  · exact ⟨.rejected, _, rfl, ⟨ha, hr', rfl, by simp, fun _ => .inl (Bool.eq_false_iff.2 hopen),
      by simp [hu], by simp [hd], by simp⟩, rfl, by simp⟩

/-- What a step leaves is a move to some phase. -/
def MovesOn (s : Delivery) (a : DeliveryAction) (r : Delivery × List DeliveryEvent) : Prop :=
  ∃ phase es, r = (s.go phase, es) ∧ Moves s a phase es

theorem MovesOn.quiet {s : Delivery} {a : DeliveryAction} {phase q : DeliveryPhase}
    (hq : s.phase = q) (ha : a ≠ .channelCloses) (hu : a.unreadable = false)
    (hr : phase.rank < q.rank) (he : phase.ended = false) (hd : q.done = false) :
    MovesOn s a (s.go phase, []) :=
  ⟨phase, [], rfl, .quiet ha hu (by rw [hq]; exact hr) he (by rw [hq]; exact hd)⟩

theorem MovesOn.cons {s t : Delivery} {a : DeliveryAction} {q : DeliveryPhase}
    {es : List DeliveryEvent} {e : DeliveryEvent} (hq : s.phase = q) (hd : q.done = false)
    (h : MovesOn s a (t, es)) (he : e.settles = false) (hc : e ≠ .wrote .markCompleted true) :
    MovesOn s a (t, e :: es) := by
  obtain ⟨phase, es', heq, hm⟩ := h
  obtain ⟨rfl, rfl⟩ := Prod.mk.inj heq
  exact ⟨phase, _, rfl, hm.cons he (by rw [hq]; exact hd) fun h => absurd h hc⟩

theorem MovesOn.of_ack {s : Delivery} {a : DeliveryAction} {q : DeliveryPhase} (caught : Bool)
    (hq : s.phase = q) (ha : a ≠ .channelCloses) (hu : a.unreadable = false) (hr : 1 < q.rank)
    (hd : q.done = false) : MovesOn s a (s.ack caught) := by
  obtain ⟨phase, es, heq, hm, -⟩ := Moves.of_ack (s := s) caught ha hu (by rw [hq]; exact hr)
    (by rw [hq]; exact hd)
  exact ⟨phase, es, heq, hm⟩

theorem MovesOn.of_nack {s : Delivery} {a : DeliveryAction} (ha : a ≠ .channelCloses)
    (hu : a.unreadable = false) (hr : 0 < s.phase.rank) : MovesOn s a s.nack := by
  unfold nack
  split_ifs with hopen
  · exact ⟨_, _, rfl, ⟨ha, hr, rfl, fun _ => hopen, by simp, by simp [hu],
      fun _ => ⟨rfl, by simp [DeliveryEvent.settles]⟩,
      fun l _ h => by cases l <;> simp at h⟩⟩
  · exact ⟨_, _, rfl, ⟨ha, hr, rfl, by simp, fun _ => .inl (Bool.eq_false_iff.2 hopen),
      by simp [hu], fun _ => ⟨rfl, by simp⟩, by simp⟩⟩

/-- A completion that is recorded leaves nothing to write or to publish. -/
theorem MovesOn.of_completed {s : Delivery} (hp : s.phase = .record .completed) :
    MovesOn s (.record true) ((s.ack true).1, .wrote .markCompleted true :: (s.ack true).2) := by
  obtain ⟨phase, es, heq, hm, hdone⟩ := Moves.of_ack (s := s) (a := .record true) true (by simp)
    rfl (by rw [hp]; decide) (by rw [hp]; rfl)
  rw [heq]
  exact ⟨phase, _, rfl, hm.cons rfl (by rw [hp]; rfl) fun _ => hdone⟩

theorem MovesOn.of_record {s : Delivery} {outcome : Outcome} (hp : s.phase = .record outcome)
    (ok : Bool) : MovesOn s (.record ok)
      ((if ok then s.recorded outcome else (s.go .backoff, [])).1, .wrote outcome.op ok
        :: (if ok then s.recorded outcome else (s.go .backoff, [])).2) := by
  have hquiet : ∀ phase : DeliveryPhase, phase.rank < 3 → phase.ended = false →
      outcome.op ≠ .markCompleted ∨ ok = false →
      MovesOn s (.record ok) (s.go phase, [.wrote outcome.op ok]) := by
    intro phase hr he hc
    have hq : MovesOn s (.record ok) (s.go phase, []) := .quiet hp (by simp) rfl hr he rfl
    refine hq.cons hp rfl rfl fun h => ?_
    obtain ⟨hop, hok⟩ := DeliveryEvent.wrote.inj h
    rcases hc with hc | hc
    · exact hc hop
    · exact absurd (hok.symm.trans hc) (by simp)
  cases ok with
  | false => exact hquiet .backoff (by decide) rfl (.inr rfl)
  | true =>
    cases outcome with
    | completed => exact .of_completed hp
    | deadLettered m n =>
      exact hquiet .publishDeadLetter (by decide) rfl (.inl (by simp [Outcome.op]))
    | retrying m delayMs =>
      exact hquiet (.publishRetry delayMs) (Nat.lt_succ_self 2) rfl (.inl (by simp [Outcome.op]))

theorem MovesOn.of_published {s : Delivery} {q : DeliveryPhase} (hq : s.phase = q)
    (hr : 1 < q.rank) (hd : q.done = false) (destination : Destination) (ok : Bool) :
    MovesOn s (.publish ok)
      ((s.published ok).1, .published destination ok :: (s.published ok).2) := by
  have h : MovesOn s (.publish ok) (s.published ok) := by
    cases ok with
    | true => exact .of_ack false hq (by simp) rfl hr hd
    | false => exact .quiet hq (by simp) rfl hr rfl hd
  exact h.cons hq hd rfl (by simp)

/-- The message of what was thrown cannot be read. -/
theorem MovesOn.of_unreadable {s : Delivery} {job : Job} (hp : s.phase = .processJob job)
    (nonRetryable : Bool) :
    MovesOn s (.processJob (.error ⟨none, nonRetryable⟩)) (s.go .rejected, []) := by
  refine ⟨.rejected, [], rfl, by simp, ?_, rfl, by simp, fun _ => .inr rfl, fun _ => rfl,
    fun _ => ⟨rfl, by simp⟩, by simp⟩
  rw [hp]
  exact Nat.succ_pos 3

/-- A step closes the channel, or moves the handler on. -/
theorem handle_cases {s : Delivery} {a : DeliveryAction} {r : Delivery × List DeliveryEvent}
    (h : s.handle a = some r) :
    (a = .channelCloses ∧ s.phase.ended = false ∧ s.channelOpen = true
      ∧ r = ({ s with channelOpen := false }, [])) ∨ MovesOn s a r := by
  unfold handle at h
  split at h
  · cases h
  · cases h
  · rename_i hne hne'
    rw [Option.ite_none_right_eq_some, Option.some.injEq] at h
    obtain ⟨hopen, rfl⟩ := h
    refine .inl ⟨rfl, ?_, hopen, rfl⟩
    rcases hp : s.phase <;> simp_all [DeliveryPhase.ended]
  all_goals refine .inr ?_
  · rename_i hp
    exact Option.some.inj h ▸ .quiet hp (by simp) rfl (Nat.lt_succ_self 4) rfl rfl
  · rename_i hp
    exact Option.some.inj h ▸ .quiet hp (by simp) rfl (by decide) rfl rfl
  · rename_i code hp
    split_ifs at h
    · exact Option.some.inj h ▸ .of_ack false hp (by simp) rfl (by decide) rfl
    · exact Option.some.inj h ▸ .quiet hp (by simp) rfl (by decide) rfl rfl
  · rename_i hp
    exact Option.some.inj h ▸ .of_ack true hp (by simp) rfl (by decide) rfl
  · rename_i hp
    exact Option.some.inj h ▸ .quiet hp (by simp) rfl (Nat.lt_succ_self 3) rfl rfl
  · rename_i job thrown hp
    rcases thrown with ⟨_ | message, nonRetryable⟩
    · exact Option.some.inj h ▸ .of_unreadable hp nonRetryable
    · exact Option.some.inj h ▸ .quiet hp (by simp) rfl (Nat.lt_succ_self 3) rfl rfl
  · rename_i outcome ok hp
    exact Option.some.inj h ▸ .of_record hp ok
  · rename_i delayMs ok hp
    exact Option.some.inj h ▸ .of_published hp (Nat.lt_succ_self 1) rfl (.retry delayMs) ok
  · rename_i ok hp
    exact Option.some.inj h ▸ .of_published hp (by decide) rfl .dlq ok
  · rename_i hp
    exact Option.some.inj h ▸ .of_nack (by simp) rfl (by rw [hp]; decide)
  · cases h

theorem step_cases {s t : Delivery} {a : DeliveryAction} (h : s.step a = some t) :
    (a = .channelCloses ∧ s.phase.ended = false ∧ s.channelOpen = true
      ∧ t = { s with channelOpen := false } ∧ s.shown a t = [])
    ∨ ∃ phase, t = s.go phase ∧ Moves s a phase (s.shown a t) := by
  obtain ⟨⟨u, es⟩, hu, rfl⟩ := Option.map_eq_some_iff.1 h
  have hes : s.shown a u = es := by simp [shown, hu]
  rw [hes]
  rcases handle_cases hu with ⟨ha, hended, hopen, heq⟩ | ⟨phase, es', heq, hm⟩
  · obtain ⟨rfl, rfl⟩ := Prod.mk.inj heq
    exact .inl ⟨ha, hended, hopen, rfl, rfl⟩
  · obtain ⟨rfl, rfl⟩ := Prod.mk.inj heq
    exact .inr ⟨phase, rfl, hm⟩

theorem step_ended {s : Delivery} (h : s.phase.ended = true) (a : DeliveryAction) :
    s.step a = none := by
  have hrank : s.phase.rank = 0 := by
    rcases hp : s.phase <;> simp_all [DeliveryPhase.ended, DeliveryPhase.rank]
  refine Option.eq_none_iff_forall_ne_some.2 fun t ht => ?_
  rcases step_cases ht with ⟨-, hended, -⟩ | ⟨phase, -, hm⟩
  · exact absurd (h.symm.trans hended) (by simp)
  · have := hm.rank
    omega

theorem go_self {s : Delivery} {phase : DeliveryPhase} (hs : s.phase = phase) :
    s.go phase = s := by
  rw [← hs]
  rfl

/-! ## A run ends -/

/-- What is left of a delivery: the phases to the end, and the channel's closing. -/
def rank (s : Delivery) : ℕ := s.phase.rank + if s.channelOpen = true then 1 else 0

theorem rank_lt {s t : Delivery} {a : DeliveryAction} (h : s.step a = some t) :
    t.rank < s.rank := by
  rcases step_cases h with ⟨-, -, hopen, rfl, -⟩ | ⟨phase, rfl, hm⟩
  · simp [rank, hopen]
  · exact Nat.add_lt_add_right hm.rank _

theorem rank_le (s : Delivery) : s.rank ≤ 6 := by
  have hphase : s.phase.rank ≤ 5 := by
    rcases hp : s.phase <;> simp [DeliveryPhase.rank]
  unfold rank
  split_ifs <;> omega

/-- What a phase awaits. -/
def awaits : DeliveryPhase → DeliveryAction → Bool
  | .claimJob, .claimJob _ | .getJobById, .getJobById | .processJob _, .processJob _
  | .record _, .record _ | .publishRetry _, .publish _ | .publishDeadLetter, .publish _
  | .backoff, .wake => true
  | _, _ => false

theorem step_of_awaits {s : Delivery} {a : DeliveryAction} (h : awaits s.phase a = true) :
    ∃ t, s.step a = some t := by
  rcases hp : s.phase <;> rw [← go_self hp] <;>
    rcases a with (code | _ | job) | _ | (⟨_ | message, _⟩ | _) | ok | ok | _ | _ <;>
    simp only [hp, awaits, Bool.false_eq_true] at h
  case claimJob.claimJob.error =>
    have hstep : (s.go .claimJob).step (.claimJob (.error code))
        = (if isInvalidTextRepresentationError code then some ((s.go .claimJob).ack false)
          else some ((s.go .claimJob).go .backoff, [])).map (·.1) := rfl
    rw [hstep]
    split_ifs <;> exact ⟨_, rfl⟩
  all_goals exact ⟨_, rfl⟩

theorem enabled {s : Delivery} (h : s.phase.ended = false) :
    ∃ a t, a ≠ .channelCloses ∧ s.step a = some t := by
  have hof : ∀ a, awaits s.phase a = true → a ≠ .channelCloses →
      ∃ a t, a ≠ .channelCloses ∧ s.step a = some t := fun a ha hc =>
    have ⟨t, ht⟩ := step_of_awaits ha
    ⟨a, t, hc, ht⟩
  rcases hp : s.phase with _ | _ | job | outcome | _ | _ | _ | _ | _
  · exact hof (.claimJob (.ok none)) (by rw [hp]; rfl) (by simp)
  · exact hof .getJobById (by rw [hp]; rfl) (by simp)
  · exact hof (.processJob (.ok ())) (by rw [hp]; rfl) (by simp)
  · exact hof (.record false) (by rw [hp]; rfl) (by simp)
  · exact hof (.publish false) (by rw [hp]; rfl) (by simp)
  · exact hof (.publish false) (by rw [hp]; rfl) (by simp)
  · exact hof .wake (by rw [hp]; rfl) (by simp)
  · simp [hp, DeliveryPhase.ended] at h
  · simp [hp, DeliveryPhase.ended] at h

/-- A run is of six steps at most, and can go on while the promise is not settled. -/
def Ends (s : Delivery) : Prop := ∀ as t, exec step s as = some t → as.length ≤ 6
  ∧ (t.phase.ended = false → ∃ a u, a ≠ .channelCloses ∧ t.step a = some u)

theorem ends (s : Delivery) : s.Ends := by
  intro as t h
  have hle : as.countP (fun _ => true) + t.rank ≤ s.rank :=
    exec_countP_le (fun _ _ _ hs => rank_lt hs) h
  rw [List.countP_true] at hle
  have := s.rank_le
  exact ⟨by omega, enabled⟩

/-! ## A channel that stays open -/

/-- A complete run from a phase that awaits starts with what the await comes to. -/
theorem exec_awaits {s t : Delivery} {as : List DeliveryAction} (h : exec step s as = some t)
    (hs : s.phase.ended = false) (ht : t.phase.ended = true) (hc : .channelCloses ∉ as) :
    ∃ a as' u, as = a :: as' ∧ a ≠ .channelCloses ∧ .channelCloses ∉ as' ∧ s.step a = some u
      ∧ exec step u as' = some t
      ∧ trace step shown s as = s.shown a u ++ trace step shown u as' := by
  rcases as with _ | ⟨a, as⟩
  · obtain rfl := Option.some.inj h
    rw [hs] at ht
    cases ht
  · obtain ⟨u, hu, h⟩ := exec_cons.1 h
    rw [List.mem_cons, not_or] at hc
    exact ⟨a, as, u, rfl, Ne.symm hc.1, hc.2, hu, h, trace_cons hu⟩

theorem exec_ended {s t : Delivery} {as : List DeliveryAction} (h : exec step s as = some t)
    (hs : s.phase.ended = true) : as = [] ∧ t = s := by
  rcases as with _ | ⟨a, as⟩
  · exact ⟨rfl, (Option.some.inj h).symm⟩
  · obtain ⟨u, hu, -⟩ := exec_cons.1 h
    rw [step_ended hs] at hu
    cases hu

theorem of_resolved {s t : Delivery} {as : List DeliveryAction} (h : exec step s as = some t)
    (hs : s.phase = .resolved) : t.phase = .resolved ∧ trace step shown s as = [] := by
  obtain ⟨rfl, rfl⟩ := exec_ended h (by rw [hs]; rfl)
  exact ⟨hs, rfl⟩

theorem handle_backoff {s : Delivery} (hs : s.phase = .backoff) (hopen : s.channelOpen = true)
    {a : DeliveryAction} (ha : a ≠ .channelCloses) : s.handle a = match a with
      | .wake => some (s.go .resolved, [.requeued])
      | _ => none := by
  rw [← go_self hs]
  cases a with
  | channelCloses => exact absurd rfl ha
  | wake => exact congrArg some (if_pos hopen)
  | _ => rfl

theorem of_backoff {s t : Delivery} {as : List DeliveryAction} (hs : s.phase = .backoff)
    (hopen : s.channelOpen = true) (h : exec step s as = some t) (hc : .channelCloses ∉ as)
    (ht : t.phase.ended = true) : t.phase = .resolved ∧ trace step shown s as = [.requeued] := by
  obtain ⟨a, as', u, rfl, ha, -, hu, h, htr⟩ := exec_awaits h (by rw [hs]; rfl) ht hc
  have hhandle := handle_backoff hs hopen ha
  rw [step, hhandle] at hu
  rw [htr, shown, hhandle]
  obtain rfl : a = .wake := by cases a <;> simp at hu ⊢
  obtain rfl : s.go .resolved = u := Option.some.inj hu
  obtain ⟨hres, hnil⟩ := of_resolved h rfl
  exact ⟨hres, by rw [hnil]; rfl⟩

/-! ## The decision table -/

def publishing : DeliveryPhase → Option Destination
  | .publishRetry delayMs => some (.retry delayMs)
  | .publishDeadLetter => some .dlq
  | _ => none

theorem handle_publishing {s : Delivery} {d : Destination} (hs : publishing s.phase = some d)
    {a : DeliveryAction} (ha : a ≠ .channelCloses) : s.handle a = match a with
      | .publish ok => some ((s.published ok).1, .published d ok :: (s.published ok).2)
      | _ => none := by
  rcases hp : s.phase <;> simp only [hp, publishing, reduceCtorEq, Option.some.injEq] at hs <;>
    subst hs <;> rw [← go_self hp] <;> cases a <;> first | exact absurd rfl ha | rfl

theorem of_publishing {s t : Delivery} {as : List DeliveryAction} {d : Destination}
    (hs : publishing s.phase = some d) (hopen : s.channelOpen = true)
    (h : exec step s as = some t) (hc : .channelCloses ∉ as) (ht : t.phase.ended = true) :
    t.phase = .resolved
      ∧ ∃ ok, trace step shown s as = [.published d ok, settlement ok] := by
  have hawaits : s.phase.ended = false := by
    rcases hp : s.phase <;> simp_all [publishing, DeliveryPhase.ended]
  obtain ⟨a, as', u, rfl, ha, hc', hu, h, htr⟩ := exec_awaits h hawaits ht hc
  have hhandle := handle_publishing hs ha
  rw [step, hhandle] at hu
  rw [htr, shown, hhandle]
  obtain ⟨ok, rfl⟩ : ∃ ok, a = .publish ok := by cases a <;> simp at hu ⊢
  cases ok with
  | true =>
    have hu' : s.go .resolved = u := by simpa [published, ack, hopen] using hu
    subst hu'
    obtain ⟨hres, hnil⟩ := of_resolved h rfl
    exact ⟨hres, true, by rw [hnil]; simp [published, ack, hopen, settlement]⟩
  | false =>
    obtain rfl : s.go .backoff = u := Option.some.inj hu
    obtain ⟨hres, hreq⟩ := of_backoff (s := s.go .backoff) rfl hopen h hc' ht
    exact ⟨hres, false, by rw [hreq]; rfl⟩

def recordedTo : Outcome → Option Destination
  | .completed => none
  | .deadLettered _ _ => some .dlq
  | .retrying _ delayMs => some (.retry delayMs)

theorem handle_record {s : Delivery} {outcome : Outcome} (hs : s.phase = .record outcome)
    {a : DeliveryAction} (ha : a ≠ .channelCloses) : s.handle a = match a with
      | .record true =>
        some ((s.recorded outcome).1, .wrote outcome.op true :: (s.recorded outcome).2)
      | .record false => some (s.go .backoff, [.wrote outcome.op false])
      | _ => none := by
  rw [← go_self hs]
  cases a with
  | record ok => cases ok <;> rfl
  | channelCloses => exact absurd rfl ha
  | _ => rfl

/-- What follows a write: nothing but the message's being settled, or one publish before it. -/
theorem of_record {s t : Delivery} {as : List DeliveryAction} {outcome : Outcome}
    (hs : s.phase = .record outcome) (hopen : s.channelOpen = true)
    (h : exec step s as = some t) (hc : .channelCloses ∉ as) (ht : t.phase.ended = true) :
    t.phase = .resolved ∧ match recordedTo outcome with
      | some d => trace step shown s as = [.wrote outcome.op false, .requeued]
        ∨ ∃ ok, trace step shown s as = [.wrote outcome.op true, .published d ok, settlement ok]
      | none => ∃ ok, trace step shown s as = [.wrote outcome.op ok, settlement ok] := by
  obtain ⟨a, as', u, rfl, ha, hc', hu, h, htr⟩ := exec_awaits h (by rw [hs]; rfl) ht hc
  have hhandle := handle_record hs ha
  rw [step, hhandle] at hu
  rw [htr, shown, hhandle]
  obtain ⟨ok, rfl⟩ : ∃ ok, a = .record ok := by cases a <;> simp at hu ⊢
  cases ok with
  | false =>
    obtain rfl : s.go .backoff = u := Option.some.inj hu
    obtain ⟨hres, hreq⟩ := of_backoff (s := s.go .backoff) rfl hopen h hc' ht
    rw [hreq]
    refine ⟨hres, ?_⟩
    cases outcome <;> simp [recordedTo, settlement]
  | true =>
    cases outcome with
    | completed =>
      have hu' : s.go .resolved = u := by simpa [recorded, ack, hopen] using hu
      subst hu'
      obtain ⟨hres, hnil⟩ := of_resolved h rfl
      exact ⟨hres, true, by rw [hnil]; simp [recorded, ack, hopen, settlement]⟩
    | deadLettered m n =>
      obtain rfl : s.go .publishDeadLetter = u := Option.some.inj hu
      obtain ⟨hres, ok, hpub⟩ :=
        of_publishing (s := s.go .publishDeadLetter) rfl hopen h hc' ht
      exact ⟨hres, .inr ⟨ok, by rw [hpub]; rfl⟩⟩
    | retrying m delayMs =>
      obtain rfl : s.go (.publishRetry delayMs) = u := Option.some.inj hu
      obtain ⟨hres, ok, hpub⟩ :=
        of_publishing (s := s.go (.publishRetry delayMs)) rfl hopen h hc' ht
      exact ⟨hres, .inr ⟨ok, by rw [hpub]; rfl⟩⟩

/-- The outcome that a readable result leads to is the one decided on. -/
theorem step_processJob {s t : Delivery} {job : Job} {result : Except ThrownValue Unit}
    (hs : s.phase = .processJob job) (h : s.step (.processJob result) = some t) :
    s.shown (.processJob result) t = []
      ∧ (Readable result → ∃ outcome, t = s.go (.record outcome)
        ∧ outcome.op.mark = some (decision job result)
        ∧ recordedTo outcome = destination job (decision job result))
      ∧ (¬ Readable result → t = s.go .rejected) := by
  rw [← go_self hs] at h ⊢
  rcases result with ⟨_ | message, nonRetryable⟩ | ⟨⟩
  · exact ⟨rfl, fun hr => absurd rfl hr, fun _ => (Option.some.inj h).symm⟩
  · refine ⟨rfl, fun _ => ?_, fun hr => absurd (by simp [Readable]) hr⟩
    refine ⟨outcomeOf job (.error ⟨message, nonRetryable⟩), (Option.some.inj h).symm, ?_⟩
    unfold outcomeOf decision
    cases nonRetryable
    · by_cases hle : job.maxAttempts ≤ job.attemptCount <;>
        simp [hle, Outcome.op, JobOp.mark, recordedTo, destination, calculateBackoffMs]
    · simp [Outcome.op, JobOp.mark, recordedTo, destination]
  · exact ⟨rfl, fun _ => ⟨.completed, (Option.some.inj h).symm, rfl, rfl⟩,
      fun hr => absurd trivial hr⟩

theorem step_claimJob {s t : Delivery} {job : Job} (hs : s.phase = .claimJob)
    (h : s.step (.claimJob (.ok (some job))) = some t) :
    s.shown (.claimJob (.ok (some job))) t = [] ∧ t = s.go (.processJob job) := by
  rw [← go_self hs] at h ⊢
  exact ⟨rfl, (Option.some.inj h).symm⟩

/-- When a claim has returned a job and the channel stays open, the handler is done within six
steps, and has kept the contract just where it could read what `processJob` threw, if it threw. -/
theorem contract_iff_readable (s : Delivery) (hs : s.phase = .claimJob)
    (hopen : s.channelOpen = true) (job : Job) (result : Except ThrownValue Unit)
    (as : List DeliveryAction) (hc : .channelCloses ∉ as) (t : Delivery)
    (h : exec step s (.claimJob (.ok (some job)) :: .processJob result :: as) = some t) :
    s.Ends ∧ (t.phase.ended = true → (t.phase = .resolved
      ∧ Contract job result
        (trace step shown s (.claimJob (.ok (some job)) :: .processJob result :: as))
      ↔ Readable result)) := by
  refine ⟨s.ends, fun ht => ?_⟩
  obtain ⟨u, hu, h⟩ := exec_cons.1 h
  obtain ⟨v, hv, h⟩ := exec_cons.1 h
  obtain ⟨hshown, rfl⟩ := step_claimJob hs hu
  obtain ⟨hnil, hread, hunread⟩ := step_processJob (s := s.go (.processJob job)) rfl hv
  rw [trace_cons hu, hshown, List.nil_append, trace_cons hv, hnil, List.nil_append]
  by_cases hr : Readable result
  · obtain ⟨outcome, rfl, hmark, hdest⟩ := hread hr
    obtain ⟨hres, htr⟩ :=
      of_record (s := (s.go (.processJob job)).go (.record outcome)) rfl hopen h hc ht
    rw [hdest] at htr
    exact iff_of_true ⟨hres, outcome.op, hmark, htr⟩ hr
  · obtain rfl := hunread hr
    obtain ⟨-, rfl⟩ := exec_ended h rfl
    exact iff_of_false (fun hres => by cases hres.1) hr

/-- A job claimed for its second attempt. -/
def claimed : Job :=
  { newJob 0 1 "email" [] with status := .processing, attemptCount := 2, totalAttemptCount := 2 }

def awaitsClaim : Delivery := { jobId := none, phase := .claimJob }

/-- The attempt fails, the retry is recorded, and its publish fails. -/
theorem contract_iff_readable_publish_fails : ∃ t,
    exec step awaitsClaim [.claimJob (.ok (some claimed)),
        .processJob (.error ⟨some "down", false⟩), .record true, .publish false, .wake] = some t
      ∧ t.phase = .resolved
      ∧ Contract claimed (.error ⟨some "down", false⟩)
        [.wrote (.markRetrying "down") true, .published (.retry 4000) false, .requeued] := by
  obtain ⟨-, hiff⟩ := contract_iff_readable awaitsClaim rfl rfl claimed
    (.error ⟨some "down", false⟩) [.record true, .publish false, .wake] (by simp) _ rfl
  obtain ⟨hres, hcontract⟩ := (hiff rfl).2 (by simp [Readable])
  exact ⟨_, rfl, hres, hcontract⟩

/-- What has no message to read, nor a string to make of it, is thrown on: nothing is written, and
the message is not settled. -/
theorem unreadable_breaks_contract : ∃ t,
    exec step awaitsClaim [.claimJob (.ok (some claimed)), .processJob (.error ⟨none, false⟩)]
        = some t
      ∧ t.phase = .rejected
      ∧ trace step shown awaitsClaim
        [.claimJob (.ok (some claimed)), .processJob (.error ⟨none, false⟩)] = []
      ∧ ¬ Contract claimed (.error ⟨none, false⟩) [] := by
  refine ⟨_, rfl, rfl, rfl, ?_⟩
  rintro ⟨op, -, h⟩
  simp [decision, destination, claimed, newJob] at h

/-! ## A channel that may close -/

theorem not_resolved_of_closed {s t : Delivery} {as : List DeliveryAction}
    (h : exec step s as = some t) (hopen : s.channelOpen = false) (hs : s.phase ≠ .resolved) :
    t.phase ≠ .resolved := by
  let I : Delivery → Prop := fun u => u.channelOpen = false ∧ u.phase ≠ .resolved
  have hstep : ∀ u a v, I u → step u a = some v → I v := by
    rintro u a v ⟨hu, hne⟩ hv
    rcases step_cases hv with ⟨-, -, hopen, -⟩ | ⟨phase, rfl, hm⟩
    · rw [hu] at hopen
      cases hopen
    · refine ⟨hu, fun hres => ?_⟩
      have hopen := hm.resolved hres
      rw [hu] at hopen
      cases hopen
  exact (exec_inv (I := I) hstep ⟨hopen, hs⟩ h).2

theorem not_rejected {s t : Delivery} {as : List DeliveryAction} (h : exec step s as = some t)
    (hopen : s.channelOpen = true) (hs : s.phase ≠ .rejected)
    (has : ∀ a ∈ as, a ≠ .channelCloses ∧ a.unreadable = false) : t.phase ≠ .rejected := by
  let I : Delivery → Prop := fun u => u.channelOpen = true ∧ u.phase ≠ .rejected
  have hstep : ∀ u a v, I u → (a ≠ .channelCloses ∧ a.unreadable = false) →
      step u a = some v → I v := by
    rintro u a v ⟨hu, hne⟩ ⟨hc, hr⟩ hv
    rcases step_cases hv with ⟨hc', -⟩ | ⟨phase, rfl, hm⟩
    · exact absurd hc' hc
    · refine ⟨hu, fun hrej => ?_⟩
      rcases hm.rejected hrej with hclosed | hunread
      · rw [hu] at hclosed
        cases hclosed
      · rw [hr] at hunread
        cases hunread
  exact (exec_inv_of_steps (I := I) hstep ⟨hopen, hs⟩ (steps_of_forall has) h).2

theorem receive_cases (body : List UInt8) :
    (Json.parse (utf8Decode body) = none
      ∧ receive body = ({ jobId := none, phase := .resolved }, [.acked]))
    ∨ (Json.parse (utf8Decode body) = some .null
      ∧ receive body = ({ jobId := none, phase := .rejected }, []))
    ∨ ∃ content, Json.parse (utf8Decode body) = some content ∧ content ≠ .null
      ∧ receive body = ({ jobId := content.get jobIdKey, phase := .claimJob }, []) := by
  unfold receive
  split
  · rename_i h
    exact .inl ⟨h, rfl⟩
  · rename_i h
    exact .inr (.inl ⟨h, rfl⟩)
  · rename_i content hne h
    exact .inr (.inr ⟨content, h, hne, rfl⟩)

theorem receive_phase (body : List UInt8) : (receive body).1.channelOpen = true
    ∧ ((receive body).1.phase = .rejected ↔ Json.parse (utf8Decode body) = some .null) := by
  rcases receive_cases body with ⟨hp, hr⟩ | ⟨hp, hr⟩ | ⟨content, hp, hne, hr⟩ <;>
    simp_all

theorem resolved_iff {body : List UInt8} {as : List DeliveryAction} {t : Delivery}
    (h : exec step (receive body).1 as = some t) (ht : t.phase.ended = true) :
    t.phase = .resolved ↔ .channelCloses ∉ as ∧ Json.parse (utf8Decode body) ≠ some .null
      ∧ ∀ a ∈ as, a.unreadable = false := by
  obtain ⟨hopen, hnull⟩ := receive_phase body
  constructor
  · intro hres
    refine ⟨fun hc => ?_, fun hn => ?_, fun a ha => ?_⟩
    · obtain ⟨l, r, rfl⟩ := List.append_of_mem hc
      obtain ⟨u, -, hu⟩ := exec_append.1 h
      obtain ⟨v, hv, hvt⟩ := exec_cons.1 hu
      rcases step_cases hv with ⟨-, hended, -, rfl, -⟩ | ⟨phase, -, hm⟩
      · refine not_resolved_of_closed hvt rfl (fun hp => ?_) hres
        change u.phase = .resolved at hp
        rw [hp] at hended
        cases hended
      · exact hm.ne_closes rfl
    · have hrej := hnull.2 hn
      obtain ⟨-, rfl⟩ := exec_ended h (by rw [hrej]; rfl)
      rw [hrej] at hres
      cases hres
    · refine Bool.eq_false_iff.2 fun hunread => ?_
      obtain ⟨l, r, rfl⟩ := List.append_of_mem ha
      obtain ⟨u, -, hu⟩ := exec_append.1 h
      obtain ⟨v, hv, hvt⟩ := exec_cons.1 hu
      rcases step_cases hv with ⟨rfl, -⟩ | ⟨phase, rfl, hm⟩
      · cases hunread
      · have hrej := hm.unreadable hunread
        obtain ⟨-, rfl⟩ := exec_ended hvt (by rw [go, hrej]; rfl)
        rw [go, hrej] at hres
        cases hres
  · rintro ⟨hc, hn, hread⟩
    have hrej := not_rejected h hopen (hnull.not.2 hn) fun a ha =>
      ⟨fun hca => hc (hca ▸ ha), hread a ha⟩
    rcases hp : t.phase <;> simp_all [DeliveryPhase.ended]

/-- Once the completion is recorded, all that is left is to settle the message. -/
theorem after_completed {s t : Delivery} {as : List DeliveryAction} (h : exec step s as = some t)
    {before after : List DeliveryEvent}
    (hl : trace step shown s as = before ++ .wrote .markCompleted true :: after) :
    ∀ e ∈ after, e.settles = true := by
  let I : List DeliveryEvent → Delivery → Prop := fun l u => ∀ before after,
    l = before ++ .wrote .markCompleted true :: after →
      u.phase.done = true ∧ ∀ e ∈ after, e.settles = true
  have hstep : ∀ l u a v, I l u → step u a = some v → I (l ++ u.shown a v) v := by
    intro l u a v hI hv before after hl
    rcases step_cases hv with ⟨-, -, -, rfl, hnil⟩ | ⟨phase, rfl, hm⟩
    · rw [hnil, List.append_nil] at hl
      exact hI before after hl
    · rcases List.append_eq_append_iff.1 hl with ⟨before', rfl, hes⟩ | ⟨after', rfl, hes⟩
      · exact hm.completed before' after hes
      · rcases after' with _ | ⟨e, after'⟩
        · exact hm.completed [] after hes.symm
        · obtain ⟨rfl, rfl⟩ := List.cons.inj hes
          obtain ⟨hdone, hafter⟩ := hI before after' rfl
          obtain ⟨hphase, hes⟩ := hm.done hdone
          exact ⟨hphase, List.forall_mem_append.2 ⟨hafter, hes⟩⟩
  have hI : I (trace step shown s as) t := exec_trace_inv hstep (by simp [I]) h
  exact (hI before after hl).2

/-- A delivery's handler is done within six steps, whatever its calls come to and wherever its
channel closes. Its promise resolves just where the channel stays open, and nothing is thrown that
no `catch` is there for. A recorded completion is followed by no other write and no publish. -/
theorem resolves_iff_channel_stays_open (body : List UInt8) (as : List DeliveryAction)
    (t : Delivery) (h : exec step (receive body).1 as = some t) :
    (receive body).1.Ends
      ∧ (t.phase.ended = true → (t.phase = .resolved ↔ .channelCloses ∉ as
        ∧ Json.parse (utf8Decode body) ≠ some .null ∧ ∀ a ∈ as, a.unreadable = false))
      ∧ ∀ before after, trace step shown (receive body).1 as
          = before ++ .wrote .markCompleted true :: after →
        ∀ e ∈ after, e.settles = true :=
  ⟨ends _, resolved_iff h, fun _ _ => after_completed h⟩

/-- The bytes of `{"jobId":"1"}`. -/
def messageBody : List UInt8 :=
  [0x7B, 0x22, 0x6A, 0x6F, 0x62, 0x49, 0x64, 0x22, 0x3A, 0x22, 0x31, 0x22, 0x7D]

/-- The job succeeds and is recorded as completed, and its message is acked. -/
def undisturbed : List DeliveryAction :=
  [.claimJob (.ok (some claimed)), .processJob (.ok ()), .record true]

/-- The channel closes while the job is processed: the completion is recorded, the ack throws into
the `catch` that backs off, and the nack after it throws out of the handler. -/
def closing : List DeliveryAction :=
  [.claimJob (.ok (some claimed)), .channelCloses, .processJob (.ok ()), .record true, .wake]

theorem resolves_iff_channel_stays_open_closing : ∃ t u,
    exec step (receive messageBody).1 undisturbed = some t
      ∧ .channelCloses ∉ undisturbed ∧ Json.parse (utf8Decode messageBody) ≠ some .null
      ∧ (∀ e ∈ [DeliveryEvent.acked], e.settles = true)
      ∧ exec step (receive messageBody).1 closing = some u ∧ u.phase.ended = true
      ∧ u.phase ≠ .resolved := by
  obtain ⟨-, hiff, hafter⟩ := resolves_iff_channel_stays_open messageBody undisturbed _ rfl
  obtain ⟨hc, hn, -⟩ := (hiff rfl).1 rfl
  obtain ⟨-, hclosing, -⟩ := resolves_iff_channel_stays_open messageBody closing _ rfl
  refine ⟨_, _, rfl, hc, hn, hafter [] [.acked] rfl, rfl, rfl, fun hu => ?_⟩
  exact ((hclosing rfl).1 hu).1 (by simp [closing])

theorem closing_rejects : ∃ t, exec step (receive messageBody).1 closing = some t
    ∧ t.phase = .rejected :=
  ⟨_, rfl, rfl⟩

end Delivery

/-! ## The worker's model -/

def HandlerPhase.seen : HandlerPhase → DeliveryPhase
  | .claimJob => .claimJob
  | .getJobById => .getJobById
  | .processJob job => .processJob job
  | .record _ outcome => .record outcome
  | .publishRetry delayMs => .publishRetry delayMs
  | .publishDeadLetter => .publishDeadLetter
  | .backoff _ => .backoff
  | .ack => .resolved

/-- What a worker's handler is as a delivery, once its channel is not to close. -/
def Worker.delivery (wk : Worker) (jobId : Option Json) : Delivery :=
  { jobId, phase := (wk.handler.map (·.phase.seen)).getD .resolved }

theorem delivery_eq {wk : Worker} {msg : JobCreatedMessage} {phase : HandlerPhase}
    (h : wk.handler = some ⟨msg, phase⟩) (jobId : Option Json) :
    wk.delivery jobId = { jobId, phase := phase.seen } := by
  simp [Worker.delivery, h]

theorem outcomeOf_processed (job : Job) : ∃ b, ∀ jobId : Option Json,
    Delivery.step { jobId, phase := .processJob job } b
      = some { jobId, phase := .record (outcomeOf job (processJob job)) } := by
  rcases processJob job with ⟨message, nonRetryable⟩ | _
  · exact ⟨.processJob (.error ⟨some message, nonRetryable⟩), fun _ => rfl⟩
  · exact ⟨.processJob (.ok ()), fun _ => rfl⟩

/-- A step of a worker's handler is one of the delivery, where its channel stays open. -/
theorem Worker.step_delivery {now : ℤ} {time : ℕ} {jobs : Jobs} {wk : Worker} {a : HandlerAction}
    {h : Handled} (hs : wk.step now time jobs a = some h) (jobId : Option Json) :
    ∃ bs, exec Delivery.step (wk.delivery jobId) bs = some (h.worker.delivery jobId) := by
  obtain ⟨msg, phase, hh, hstep⟩ := Worker.handler_of_step hs
  rw [delivery_eq hh]
  cases hstep with
  | @claimed job => exact ⟨[.claimJob (.ok (some job))], rfl⟩
  | notClaimed => exact ⟨[.claimJob (.ok none)], rfl⟩
  | claimThrew => exact ⟨[.claimJob (.error none)], rfl⟩
  | read => exact ⟨[.getJobById], rfl⟩
  | @processed job =>
    obtain ⟨b, hb⟩ := outcomeOf_processed job
    exact ⟨[b], exec_singleton.2 (hb jobId)⟩
  | @recorded job row outcome => cases outcome <;> exact ⟨[.record true], rfl⟩
  | @recordThrew job outcome => exact ⟨[.record false], rfl⟩
  | publishedRetry => exact ⟨[.publish true], rfl⟩
  | retryThrew => exact ⟨[.publish false], rfl⟩
  | publishedDeadLetter => exact ⟨[.publish true], rfl⟩
  | deadLetterThrew => exact ⟨[.publish false], rfl⟩
  | requeued => exact ⟨[.wake], rfl⟩
  | acked => exact ⟨[], rfl⟩

end DeadLetter
