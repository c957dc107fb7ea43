import DeadLetter.Proofs.Connection
import DeadLetter.Transition

/-!
# A dead channel in the cache

A cached channel is open, or it is to be dropped: an event of it is to be delivered, or
`closeConnection` is in progress (`Link.Live`). Three steps may end this: a call of `getChannel`
caches a channel that was lost and told of while the call awaited its reply, an event of the cached
channel is delivered while `closingIntentionally` is still set, and a `close()` rejects once the
events of the cached channel are gone. Every other step keeps it, so these three are all the ways
for a dead channel to stay.
-/

namespace DeadLetter

open Transition

namespace Link

variable {κ : Type} [DecidableEq κ] {topology : List Assertion} {s t : Link κ} {a : LinkAction κ}
  {o : LinkOutput κ}

/-- A call of `closeConnection` is in progress. -/
def IsClosing (s : Link κ) : Prop := ∃ j, s.closes j ≠ none

/-- No event is to be delivered, and no call is in progress. -/
structure Quiet (s : Link κ) : Prop where
  events : s.events = []
  calls : ∀ c, s.calls c = none
  closes : ∀ j, s.closes j = none

/-- The cached channel is open, on an open connection. -/
def Healthy (s : Link κ) : Prop :=
  ∀ n, s.channel = some n → s.connection = some n ∧ (s.pairs n).isOpen = true

/-- The cached channel is open, or it is to be dropped. -/
def Live (s : Link κ) : Prop := ∀ n, s.channel = some n → s.Told n ∨ s.IsClosing

/-- The step does not leave a channel in the cache whose events are all gone. -/
def KeepsLive (s : Link κ) : LinkAction κ → Prop
  | .resume c => match s.calls c with
    | some (.asserted n []) => s.Told n ∨ s.IsClosing
    | _ => True
  | .deliver n r => s.channel = some n → s.closingIntentionally = false
      ∨ Told { s with events := s.events.erase (n, r) } n ∨ s.IsClosing
  | .closeReply j false => match s.closes j with
    | some (.channel (some _)) | some (.connection (some _)) =>
      ∀ n, s.channel = some n → s.Told n ∨ ∃ k ≠ j, s.closes k ≠ none
    | _ => True
  | _ => True

/-- An event of another connection leaves the cached one. -/
def Spares (s : Link κ) (a : LinkAction κ) (t : Link κ) : Prop :=
  ∀ m, s.channel = some m → ∀ n r, a = .deliver n r → n ≠ m →
    t.channel = some m ∧ t.connection = some m

/-! ## One step -/

theorem next_eq (h : s.next topology a = some t) : ∃ o, s.step topology a = some (t, o) := by
  obtain ⟨⟨u, o⟩, hu, rfl⟩ := Option.map_eq_some_iff.1 h
  exact ⟨o, hu⟩

omit [DecidableEq κ] in
theorem same_lost {n : ℕ} {connection : Bool} {reasons : List Reason}
    (hs : s.connection = s.channel) (h : s.lost n connection reasons = some (t, o)) :
    t.connection = t.channel := by
  simp only [Link.lost, Option.ite_none_right_eq_some] at h
  obtain ⟨-, h⟩ := h
  obtain ⟨rfl, -⟩ := Prod.mk.inj (Option.some.inj h)
  exact hs

/-- The connection and the channel are cached together, and dropped together. -/
theorem same_step (hs : s.connection = s.channel) (h : s.step topology a = some (t, o)) :
    t.connection = t.channel := by
  cases step_cases h with
  | listened => cases topology <;> first | rfl | exact hs
  | @proceeded c n rest => cases rest <;> first | rfl | exact hs
  | lost => exact same_lost hs h
  | heard =>
    unfold invalidate
    split_ifs
    · exact hs
    · exact hs
    all_goals simp_all
  | closing h =>
    obtain rfl := closeConnection_eq h
    exact hs
  | closeReplied h =>
    rcases closeReply_cases h with ⟨_, rfl, -⟩ | ⟨-, rfl, -⟩ | ⟨-, _, _, _, l, _, _, hl, rfl⟩
    · exact hs
    · exact hs
    · exact (same_lost hs hl : l.connection = l.channel)
  | closeResumed h =>
    rcases closeResume_cases h with rfl | rfl
    · exact hs
    · rfl
  | _ => exact hs

omit [DecidableEq κ] in
/-- `invalidate` clears its own connection from the cache, where it is not being closed. -/
theorem invalidate_channel (hs : s.connection = s.channel) (n : ℕ) :
    (s.invalidate n).1.channel
      = if s.channel = some n ∧ s.closingIntentionally = false then none else s.channel := by
  unfold invalidate
  by_cases hn : s.channel = some n
  · by_cases hc : s.closingIntentionally = true <;> simp [hn, hc]
  · simp [hs, hn]

theorem spares_step (hs : s.connection = s.channel) (h : s.step topology a = some (t, o)) :
    Spares s a t := by
  rintro m hm n r rfl hn
  suffices ht : t.channel = some m from ⟨ht, (same_step hs h).trans ht⟩
  cases step_cases h with
  | unheard => exact hm
  | heard =>
    rw [invalidate_channel (s := { s with events := s.events.erase (n, r) }) hs, if_neg]
    · exact hm
    · rintro ⟨hm', -⟩
      exact hn (Option.some.inj (hm'.symm.trans hm))

/-! ## The cached channel, step by step -/

/-- The listeners are there, and the connection and the channel are cached together. -/
structure Paired (s : Link κ) : Prop extends Listening s where
  same : s.connection = s.channel

theorem Paired.step (hI : s.Paired) (h : s.step topology a = some (t, o)) : t.Paired :=
  ⟨hI.toListening.step h, same_step hI.same h⟩

omit [DecidableEq κ] in
theorem Live.mono (hL : s.Live) (hch : t.channel = s.channel) (hT : ∀ m, s.Told m → t.Told m)
    (hj : s.IsClosing → t.IsClosing) : t.Live :=
  fun m hm => (hL m (hch ▸ hm)).imp (hT m) hj

omit [DecidableEq κ] in
theorem isClosing_setClose {j : ℕ} {u : Closing} : (s.setClose j (some u)).IsClosing :=
  ⟨j, by simp [setClose]⟩

omit [DecidableEq κ] in
theorem isClosing_returned {j : ℕ} :
    (s.setClose j none).IsClosing ↔ ∃ k ≠ j, s.closes k ≠ none := by
  refine exists_congr fun k => ?_
  by_cases hk : k = j
  · subst hk
    simp [setClose]
  · simp [setClose, hk]

/-- A call caches its connection. -/
theorem live_cached {c : κ} {n : ℕ} :
    (s.proceed c n []).1.Live ↔ s.Told n ∨ s.IsClosing :=
  ⟨fun h => h n rfl, fun h _ hm => Option.some.inj hm ▸ h⟩

theorem live_resume (ht : topology ≠ []) {c : κ} (hL : s.Live)
    (h : s.step topology (.resume c) = some (t, o)) : t.Live ↔ KeepsLive s (.resume c) := by
  cases step_cases h with
  | creating hc =>
    refine iff_of_true hL ?_
    simp only [KeepsLive, hc]
  | @listened c n hc =>
    obtain ⟨assertion, rest, rfl⟩ := List.exists_cons_of_ne_nil ht
    refine iff_of_true (hL.mono rfl (fun _ hm => ?_) id) ?_
    · exact Told.proceed (hm.setPair fun p hp => hp)
    · simp only [KeepsLive, hc]
  | @proceeded c n rest hc =>
    cases rest with
    | nil =>
      rw [live_cached]
      simp only [KeepsLive, hc]
    | cons assertion rest =>
      refine iff_of_true hL ?_
      simp only [KeepsLive, hc]

omit [DecidableEq κ] in
theorem live_invalidate (hs : s.connection = s.channel) {n : ℕ}
    (hL : ∀ m, m ≠ n → s.channel = some m → s.Told m ∨ s.IsClosing) :
    (s.invalidate n).1.Live
      ↔ (s.channel = some n → s.closingIntentionally = false ∨ s.Told n ∨ s.IsClosing) := by
  have hclosing : (s.invalidate n).1.IsClosing ↔ s.IsClosing := by
    unfold invalidate
    split_ifs <;> rfl
  simp only [Live, invalidate_channel hs, told_invalidate, hclosing]
  constructor
  · intro h hn
    rcases hc : s.closingIntentionally with _ | _
    · exact .inl rfl
    · exact .inr (h n (by rw [if_neg (by simp [hc]), hn]))
  · intro h m hm
    split_ifs at hm with hc
    by_cases hmn : m = n
    · subst hmn
      exact (h hm).resolve_left fun hc' => hc ⟨hm, hc'⟩
    · exact hL m hmn hm

theorem live_deliver (hI : s.Paired) {n : ℕ} {r : Reason} (hL : s.Live)
    (h : s.step topology (.deliver n r) = some (t, o)) : t.Live ↔ KeepsLive s (.deliver n r) := by
  have hother : ∀ m, m ≠ n → s.channel = some m →
      Told { s with events := s.events.erase (n, r) } m ∨ s.IsClosing :=
    fun m hm hc => (hL m hc).imp_left fun hT => hT.erase (Ne.symm hm)
  cases step_cases h with
  | unheard he hl =>
    have hn : s.channel ≠ some n := fun hn => absurd (hI.cached n hn) (by simp [hl])
    refine iff_of_true (fun m hm => hother m ?_ hm) fun hn' => absurd hn' hn
    rintro rfl
    exact hn hm
  | heard => exact live_invalidate (s := { s with events := s.events.erase (n, r) }) hI.same hother

theorem live_closeReply {j : ℕ} {ok : Bool} (hL : s.Live)
    (h : s.step topology (.closeReply j ok) = some (t, o)) :
    t.Live ↔ KeepsLive s (.closeReply j ok) := by
  rcases closeReply_cases h with ⟨_, rfl, hc⟩ | ⟨rfl, rfl, n, hc⟩ | ⟨rfl, _, _, _, l, _, _, -, rfl⟩
  · refine iff_of_true (hL.mono rfl (fun m hm => hm) fun _ => isClosing_setClose) ?_
    cases ok <;> rcases hc with hc | hc <;> simp only [KeepsLive, hc]
  · have hlive : (s.setClose j none).Live
        ↔ ∀ n, s.channel = some n → s.Told n ∨ ∃ k ≠ j, s.closes k ≠ none := by
      simp only [Live, told_setClose, isClosing_returned]
      rfl
    rw [hlive]
    rcases hc with hc | hc <;> simp only [KeepsLive, hc]
  · refine iff_of_true (fun _ _ => .inr isClosing_setClose) ?_
    simp only [KeepsLive]

/-- The three steps are all the ways to leave a dead channel in the cache. -/
theorem live_step_iff (ht : topology ≠ []) (hI : s.Paired) (hL : s.Live)
    (h : s.step topology a = some (t, o)) : t.Live ↔ KeepsLive s a := by
  have hT : (∀ n r, a ≠ .deliver n r) → ∀ m, s.Told m → t.Told m := fun ha m hm =>
    (hm.step h).resolve_right fun ⟨r, hr⟩ => ha m r hr
  cases a with
  | resume c => exact live_resume ht hL h
  | deliver n r => exact live_deliver hI hL h
  | closeReply j ok => exact live_closeReply hL h
  | getChannel c =>
    refine iff_of_true ?_ trivial
    cases step_cases h with
    | found => exact hL
    | connecting => exact hL
  | reply c ok =>
    refine iff_of_true ?_ trivial
    have := hT (by simp)
    cases step_cases h with
    | rejected => exact hL
    | connected => exact hL.mono rfl this id
    | channelCreated => exact hL.mono rfl this id
    | assertionReplied => exact hL
  | lost n connection reasons =>
    refine iff_of_true ?_ trivial
    have := hT (by simp)
    cases step_cases h with
    | lost => exact hL.mono rfl this id
  | closeConnection j =>
    obtain rfl := closeConnection_eq h
    exact iff_of_true (fun _ _ => .inr isClosing_setClose) trivial
  | closeResume j =>
    refine iff_of_true ?_ trivial
    rcases closeResume_cases h with rfl | rfl
    · exact fun _ _ => .inr isClosing_setClose
    · exact fun m hm => absurd hm (by simp [setClose])

/-! ## Runs -/

omit [DecidableEq κ] in
theorem paired_init : ({} : Link κ).Paired := ⟨listening_init, rfl⟩

omit [DecidableEq κ] in
theorem live_init : ({} : Link κ).Live := fun _ hn => by simp at hn

/-- No dead channel stays in the cache of a run just where each of its steps keeps it so. -/
theorem live_iff_keepsLive (ht : topology ≠ []) (as : List (LinkAction κ)) :
    Steps (next topology) (fun _ _ t => t.Live) {} as
      ↔ Steps (next topology) (fun s a _ => KeepsLive s a) {} as := by
  refine steps_congr (I := fun s => s.Paired ∧ s.Live) (fun s a t hI hL h => ?_)
    (fun s a t hI h => ?_) ⟨paired_init, live_init⟩
  · obtain ⟨o, h⟩ := next_eq h
    exact ⟨hI.1.step h, hL⟩
  · obtain ⟨o, h⟩ := next_eq h
    exact live_step_iff ht hI.1 hI.2 h

omit [DecidableEq κ] in
theorem Quiet.healthy (hq : s.Quiet) (hs : s.connection = s.channel) (hL : s.Live) :
    s.Healthy := by
  intro n hn
  refine ⟨hs.trans hn, ?_⟩
  rcases hL n hn with ho | ⟨j, hj⟩
  · exact ho.resolve_right (by simp [hq.events])
  · exact absurd (hq.closes j) hj

theorem topology_ne_nil (ht : topology ∈ [mainTopology, workerTopology]) : topology ≠ [] := by
  simp only [List.mem_cons, List.not_mem_nil, or_false] at ht
  rcases ht with rfl | rfl <;> simp [mainTopology, workerTopology]

/-- In a run whose steps leave no channel in the cache without its events, what is cached once
nothing is in progress is open. An event of another connection never clears it, in any run. -/
theorem no_dead_channel_stays (ht : topology ∈ [mainTopology, workerTopology])
    (as : List (LinkAction κ)) (h : exec (next topology) {} as = some s) :
    Steps (next topology) Spares {} as
      ∧ (Steps (next topology) (fun s a _ => KeepsLive s a) {} as → s.Quiet → s.Healthy) := by
  constructor
  · refine Steps.of_inv (I := fun s => s.connection = s.channel) (R := fun _ _ _ => True)
      (fun s a t hs _ h => ?_) rfl steps_true
    obtain ⟨o, h⟩ := next_eq h
    exact ⟨same_step hs h, spares_step hs h⟩
  · intro hR hq
    have hstep : ∀ (s : Link κ) a t, s.Paired ∧ s.Live → KeepsLive s a →
        next topology s a = some t → t.Paired ∧ t.Live := by
      intro s a t hI hK h
      obtain ⟨o, h⟩ := next_eq h
      exact ⟨hI.1.step h, (live_step_iff (topology_ne_nil ht) hI.1 hI.2 h).2 hK⟩
    obtain ⟨hI, hL⟩ := exec_inv_of_steps hstep ⟨paired_init, live_init⟩ hR h
    exact hq.healthy hI.same hL

/-- A call of `getChannel`, up to the reply to its last assertion. -/
def asserting (c : ℕ) : List (LinkAction ℕ) :=
  [.getChannel c, .reply c true, .resume c, .reply c true, .resume c, .reply c true, .resume c,
    .reply c true, .resume c, .reply c true]

/-- The connection is lost with two events. The first has it replaced, the second comes late. -/
def replacing : List (LinkAction ℕ) :=
  asserting 0 ++ [.resume 0, .lost 0 true [.connectionError, .connectionClosed],
    .deliver 0 .connectionError] ++ asserting 0 ++ [.resume 0, .deliver 0 .connectionClosed]

theorem no_dead_channel_stays_replacing : ∃ s : Link ℕ,
    exec (next mainTopology) {} replacing = some s ∧ s.channel = some 1 ∧ s.Healthy := by
  refine ⟨_, rfl, rfl, ?_⟩
  refine (no_dead_channel_stays (.head _) replacing rfl).2 ?_ ⟨rfl, fun c => ?_, fun _ => rfl⟩
  · repeat' first
      | exact trivial | exact .inl (.inl rfl) | exact fun _ => .inl rfl | refine And.intro ?_ ?_
  · rcases c with _ | c <;> rfl

/-- The connection is lost, and its event delivered, before the call goes on to cache it. -/
def toldTooSoon : List (LinkAction ℕ) :=
  asserting 0 ++ [.lost 0 true [.connectionClosed], .deliver 0 .connectionClosed, .resume 0]

theorem told_too_soon_stays_dead : ∃ s : Link ℕ,
    exec (next mainTopology) {} toldTooSoon = some s ∧ s.Quiet ∧ s.channel = some 0
      ∧ (s.pairs 0).isOpen = false ∧ ¬ s.Healthy := by
  refine ⟨_, rfl, ⟨rfl, fun c => ?_, fun _ => rfl⟩, rfl, rfl, fun h => ?_⟩
  · rcases c with _ | c <;> rfl
  · exact absurd (h 0 rfl).2 (by decide)

end Link

end DeadLetter
