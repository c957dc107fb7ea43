import DeadLetter.JobEvents

/-!
# One reconnect thread

Until the unmount, the effect has one socket that is not closed or one pending timer, and not both:
a close event turns the one into the other, a timer turns it back, and no other event touches
either. `reconnectTimer` names the pending timer, so that the cleanup clears it.
-/

namespace DeadLetter

open Transition

namespace JobEvents

/-! ## Sockets -/

theorem countP_modify {α : Type*} {p : α → Bool} {f : α → α} (hf : ∀ a, p (f a) = p a) :
    ∀ (l : List α) (i : ℕ), (l.modify i f).countP p = l.countP p
  | [], i => by simp
  | a :: l, 0 => by simp [List.countP_cons, hf]
  | a :: l, i + 1 => by simp [List.countP_cons, countP_modify hf l i]

theorem closeWs_live (s : JobEvents) : s.closeWs.live = s.live := by
  unfold closeWs
  split
  · exact countP_modify (by intro r; cases r <;> rfl) _ _
  · rfl

theorem closeWs_eq (s : JobEvents) : s.closeWs = { s with sockets := s.closeWs.sockets } := by
  unfold closeWs
  split <;> rfl

theorem countP_set_of_not {α : Type*} {p : α → Bool} {a b : α} (ha : p a = true)
    (hb : p b = false) : ∀ {l : List α} {i : ℕ}, l[i]? = some a →
      (l.set i b).countP p + 1 = l.countP p
  | [], i, h => by simp at h
  | c :: l, 0, h => by
    obtain rfl : c = a := by simpa using h
    simp [ha, hb]
  | c :: l, i + 1, h => by
    have ih := countP_set_of_not ha hb (l := l) (i := i) (by simpa using h)
    rw [List.set_cons_succ, List.countP_cons, List.countP_cons, ← ih]
    omega

/-- A close event leaves one socket less. -/
theorem live_close {s : JobEvents} {i : ℕ} (h : s.isLive i = true) :
    ({ s with sockets := s.sockets.set i .closed } : JobEvents).live + 1 = s.live := by
  unfold isLive at h
  rcases hr : s.sockets[i]? with _ | r
  · simp [hr] at h
  · rw [hr] at h
    exact countP_set_of_not (p := fun r => decide (r ≠ ReadyState.closed)) h rfl hr

/-! ## What a step keeps -/

/-- Before the unmount one socket is open or to be closed, or one timer is pending; after it no
timer is. -/
structure OneThread (s : JobEvents) : Prop where
  one : s.cancelled = false → s.live + s.timers.length = 1
  none : s.cancelled = true → s.timers = []
  named : ∀ t ∈ s.timers, s.reconnectTimer = some t.id

theorem OneThread.sockets {s : JobEvents} (h : OneThread s) {sockets : List ReadyState}
    (hl : ({ s with sockets } : JobEvents).live = s.live) : OneThread { s with sockets } :=
  ⟨fun hc => by rw [hl]; exact h.one hc, h.none, h.named⟩

theorem OneThread.closeWs {s : JobEvents} (h : OneThread s) : OneThread s.closeWs := by
  have hl := s.closeWs_live
  rw [closeWs_eq] at hl ⊢
  exact h.sockets hl

/-- Where nothing is left that would connect, connecting makes the one thread. -/
theorem OneThread.connect {s : JobEvents} (hc : s.cancelled = false) (hl : s.live = 0)
    (ht : s.timers = []) : OneThread s.connect.1 := by
  have hlive : ({ s with sockets := s.sockets ++ [.connecting] } : JobEvents).live = 1 := by
    simp only [live, List.countP_append] at hl ⊢
    rw [hl]
    rfl
  unfold JobEvents.connect
  rw [if_neg (by simp [hc])]
  refine ⟨fun _ => ?_, fun h => absurd (hc.symm.trans h) (by decide), fun t h => ?_⟩
  · rw [ht]
    exact hlive
  · rw [ht] at h
    cases h

theorem OneThread.onclose {s : JobEvents} (h : OneThread s) {i : ℕ} (hi : s.isLive i = true) :
    OneThread (onclose { s with sockets := s.sockets.set i .closed }).1 := by
  have hl := live_close hi
  unfold JobEvents.onclose
  dsimp only
  split_ifs with hc
  · exact ⟨fun h' => absurd (hc.symm.trans h') (by decide), h.none, h.named⟩
  · have hone := h.one (Bool.eq_false_iff.2 hc)
    -- the socket was the one live thing, so that no timer was pending
    have hnil : s.timers = [] := List.eq_nil_of_length_eq_zero (by omega)
    refine ⟨fun _ => ?_, fun h' => absurd h' hc, fun t ht => ?_⟩
    · simp only [hnil, List.nil_append, List.length_singleton]
      change ({ s with sockets := s.sockets.set i .closed } : JobEvents).live + 1 = 1
      omega
    · simp only [hnil, List.nil_append, List.mem_singleton] at ht
      rw [ht]

theorem OneThread.timer {s : JobEvents} (h : OneThread s) {id : ℕ}
    (hid : id ∈ s.timers.map (·.id)) : OneThread (s.clearTimeout id).connect.1 := by
  obtain ⟨t, ht, rfl⟩ := List.mem_map.1 hid
  have hc : s.cancelled = false := by
    refine Bool.eq_false_iff.2 fun hc => ?_
    rw [h.none hc] at ht
    cases ht
  have hone := h.one hc
  have hpos := List.length_pos_of_mem ht
  obtain ⟨t', hts⟩ : ∃ t', s.timers = [t'] := List.length_eq_one_iff.1 (by omega)
  obtain rfl : t = t' := by simpa [hts] using ht
  have hclear : (s.clearTimeout t.id).timers = [] := by simp [clearTimeout, hts]
  have hlive : (s.clearTimeout t.id).live = 0 := by
    change s.live = 0
    omega
  exact .connect hc hlive hclear

theorem OneThread.cleanup {s : JobEvents} (h : OneThread s) : OneThread s.cleanup.1 := by
  refine OneThread.closeWs ?_
  rcases hr : s.reconnectTimer with _ | id
  · have : s.timers = [] := List.eq_nil_iff_forall_not_mem.2 fun t ht => by
      simpa [hr] using h.named t ht
    exact ⟨fun h' => (by cases h'), fun _ => this, fun t ht => by simp [this] at ht⟩
  · have : s.timers.filter (·.id ≠ id) = [] := List.filter_eq_nil_iff.2 fun t ht => by
      have := h.named t ht
      rw [hr] at this
      simpa using (Option.some.inj this).symm
    refine ⟨fun h' => (by cases h'), fun _ => this, fun t ht => ?_⟩
    simp only [clearTimeout, this] at ht
    cases ht

theorem onmessage_eq (s : JobEvents) (data : CodeUnits) :
    s.onmessage data = { s with lastEvent := (s.onmessage data).lastEvent } := by
  unfold onmessage
  split
  · rfl
  · split
    · split_ifs <;> rfl
    · rfl

theorem OneThread.step {s s' : JobEvents} {a : JobEventsAction} (h : OneThread s)
    (hs : s.step a = some s') : OneThread s' := by
  cases a <;> simp only [JobEvents.step, handle, Option.map_eq_some_iff,
    Option.ite_none_right_eq_some, Option.ite_none_left_eq_some, Option.some.injEq] at hs <;>
    obtain ⟨_, ⟨hi, rfl⟩, rfl⟩ := hs
  case socketOpen i =>
    have hl : ({ s with sockets := s.sockets.modify i fun r =>
        if r = .connecting then .opened else r } : JobEvents).live = s.live :=
      countP_modify (by intro r; cases r <;> rfl) _ _
    exact ⟨(h.sockets hl).one, (h.sockets hl).none, (h.sockets hl).named⟩
  case socketMessage i data =>
    rw [onmessage_eq]
    exact ⟨h.one, h.none, h.named⟩
  case socketError i => exact h.closeWs
  case socketClose i => exact h.onclose hi
  case timer id => exact h.timer hi
  case unmount => exact h.cleanup

/-- What a step does besides, and to the counter and the flag. -/
theorem step_effect {s s' : JobEvents} {a : JobEventsAction} (hs : s.step a = some s') :
    (s.shown a s' = [] ∧ s'.reconnectAttempt = s.reconnectAttempt ∧ s'.cancelled = s.cancelled)
      ∨ (s.shown a s' = [.opened] ∧ s'.reconnectAttempt = 0 ∧ s'.cancelled = s.cancelled)
      ∨ (s.shown a s' = [.created] ∧ s.cancelled = false
        ∧ s'.reconnectAttempt = s.reconnectAttempt ∧ s'.cancelled = s.cancelled)
      ∨ (s.shown a s' = [.waits (delayMs s.reconnectAttempt)] ∧ s.cancelled = false
        ∧ s'.reconnectAttempt = s.reconnectAttempt + 1 ∧ s'.cancelled = s.cancelled)
      ∨ (s.shown a s' = [.unmounted] ∧ s'.reconnectAttempt = s.reconnectAttempt
        ∧ s'.cancelled = true) := by
  cases a <;> simp only [JobEvents.step, handle, Option.map_eq_some_iff,
    Option.ite_none_right_eq_some, Option.ite_none_left_eq_some, Option.some.injEq] at hs <;>
    obtain ⟨_, ⟨hi, rfl⟩, rfl⟩ := hs
  case socketOpen i => exact .inr (.inl ⟨by simp [shown, handle, hi, onopen], rfl, rfl⟩)
  case socketMessage i data =>
    rw [onmessage_eq]
    exact .inl ⟨by simp [shown, handle, hi], rfl, rfl⟩
  case socketError i =>
    rw [closeWs_eq]
    exact .inl ⟨by simp [shown, handle, hi], rfl, rfl⟩
  case socketClose i =>
    by_cases hc : s.cancelled = true
    · exact .inl (by simp [shown, handle, hi, onclose, hc])
    · exact .inr (.inr (.inr (.inl (by simp [shown, handle, hi, onclose, hc]))))
  case timer id =>
    by_cases hc : s.cancelled = true
    · exact .inl (by simp [shown, handle, hi, connect, clearTimeout, hc])
    · exact .inr (.inr (.inl (by simp [shown, handle, hi, connect, clearTimeout, hc])))
  case unmount =>
    refine .inr (.inr (.inr (.inr ⟨by simp [shown, handle, hi, cleanup], ?_⟩)))
    simp only [cleanup]
    rw [closeWs_eq]
    split <;> exact ⟨rfl, rfl⟩

/-! ## A whole run -/

/-- The counter, the waits and the end of the thread, as the effects so far tell them. -/
structure Recorded (l : List JobEventsEffect) (s : JobEvents) : Prop where
  attempt : s.reconnectAttempt = failures l
  cancelled : .unmounted ∈ l → s.cancelled = true
  waits : ∀ l₁ d l₂, l = l₁ ++ .waits d :: l₂ → d = delayMs (failures l₁)
  stopped : ∀ l₁ l₂, l = l₁ ++ .unmounted :: l₂ → .created ∉ l₂ ∧ ∀ d, .waits d ∉ l₂

theorem failures_append (l : List JobEventsEffect) (e : JobEventsEffect) :
    failures (l ++ [e]) = match e with
      | .opened => 0
      | .waits _ => failures l + 1
      | _ => failures l := by
  rw [failures, List.foldl_append]
  rfl

theorem Recorded.append {l : List JobEventsEffect} {s s' : JobEvents} {e : JobEventsEffect}
    (h : Recorded l s) (ha : s'.reconnectAttempt = failures (l ++ [e]))
    (hc : e = .unmounted ∨ s.cancelled = true → s'.cancelled = true)
    (hw : ∀ d, e = .waits d → d = delayMs s.reconnectAttempt)
    (ho : s.cancelled = true → e ≠ .created ∧ ∀ d, e ≠ .waits d) : Recorded (l ++ [e]) s' := by
  refine ⟨ha, fun hu => hc ?_, fun l₁ d l₂ hl => ?_, fun l₁ l₂ hl => ?_⟩
  · rcases List.mem_append.1 hu with hu | hu
    · exact .inr (h.cancelled hu)
    · exact .inl (List.mem_singleton.1 hu).symm
  · rcases concat_eq_append_cons hl with ⟨rfl, he, rfl⟩ | ⟨l₃, rfl, hl'⟩
    · rw [hw d he.symm, h.attempt]
    · exact h.waits l₁ d l₃ hl'
  · rcases concat_eq_append_cons hl with ⟨rfl, -, -⟩ | ⟨l₃, rfl, hl'⟩
    · simp
    · obtain ⟨hcreated, hwaits⟩ := h.stopped l₁ l₃ hl'
      obtain ⟨hne, hne'⟩ := ho (h.cancelled (by simp [hl']))
      simp only [List.mem_append, List.mem_singleton, not_or]
      exact ⟨⟨hcreated, hne.symm⟩, fun d => ⟨hwaits d, (hne' d).symm⟩⟩

theorem Recorded.step {l : List JobEventsEffect} {s s' : JobEvents} {a : JobEventsAction}
    (h : Recorded l s) (hs : s.step a = some s') : Recorded (l ++ s.shown a s') s' := by
  have ha := h.attempt
  rcases step_effect hs with ⟨he, hr, hc⟩ | ⟨he, hr, hc⟩ | ⟨he, hno, hr, hc⟩ | ⟨he, hno, hr, hc⟩
    | ⟨he, hr, hc⟩ <;> rw [he]
  · rw [List.append_nil]
    exact ⟨hr.trans ha, fun hu => hc.trans (h.cancelled hu), h.waits, h.stopped⟩
  · exact h.append (by rw [hr, failures_append]) (by simp [hc]) (by simp) (by simp)
  · exact h.append (by rw [hr, ha, failures_append]) (by simp [hc]) (by simp) (by simp [hno])
  · exact h.append (by rw [hr, ha, failures_append]) (by simp [hc]) (by simp) (by simp [hno])
  · exact h.append (by rw [hr, ha, failures_append]) (by simp [hc]) (by simp) (by simp)

theorem Recorded.mounted : Recorded [] mounted :=
  ⟨rfl, by simp, by simp, by simp⟩

/-- In any run from the mount: before the unmount there is one socket whose close event is to come
or one pending timer, and not both; each wait to reconnect is as long as the failures since the last
open make it; and after the unmount no socket is created and no timer is set or pending. -/
theorem one_reconnect_thread (as : List JobEventsAction) (s : JobEvents)
    (h : exec JobEvents.step mounted as = some s) :
    (s.cancelled = false → s.live + s.timers.length = 1)
      ∧ (∀ before d after, trace JobEvents.step shown mounted as = before ++ .waits d :: after →
        d = min (1000 * 2 ^ failures before) 15000)
      ∧ (s.cancelled = true → s.timers = [])
      ∧ ∀ before after, trace JobEvents.step shown mounted as = before ++ .unmounted :: after →
        s.cancelled = true ∧ .created ∉ after ∧ ∀ d, .waits d ∉ after := by
  have hone : OneThread s :=
    exec_inv (fun _ _ _ hI hs => hI.step hs) (OneThread.connect rfl rfl rfl) h
  have hrec : Recorded (trace JobEvents.step shown mounted as) s :=
    exec_trace_inv (fun _ _ _ _ hI hs => hI.step hs) Recorded.mounted h
  exact ⟨hone.one, hrec.waits, hone.none, fun before after hl =>
    ⟨hrec.cancelled (by simp [hl]), hrec.stopped before after hl⟩⟩

/-- The first socket opens and is lost, the next one fails, and the unmount closes the third. -/
def twiceDown : List JobEventsAction :=
  [.socketOpen 0, .socketClose 0, .timer 0, .socketError 1, .socketClose 1, .timer 1, .unmount,
    .socketClose 2]

theorem one_reconnect_thread_twiceDown : ∃ s,
    exec JobEvents.step mounted twiceDown = some s
      ∧ trace JobEvents.step shown mounted twiceDown
        = [.opened, .waits 1000, .created, .waits 2000, .created, .unmounted]
      ∧ (2000 : ℕ) = min (1000 * 2 ^ failures [.opened, .waits 1000, .created]) 15000
      ∧ s.timers = [] := by
  obtain ⟨-, hwaits, hnone, -⟩ := one_reconnect_thread twiceDown _ rfl
  exact ⟨_, rfl, rfl, hwaits [.opened, .waits 1000, .created] 2000 [.created, .unmounted] rfl,
    hnone rfl⟩

end JobEvents

end DeadLetter
