import DeadLetter.Custody
import DeadLetter.Proofs.Cache

/-!
# The connections that were opened

A connection is held by the call of `getChannel` that opened it until the call caches it
(`Link.custody`). Three steps let go of a connection that is open: the call fails, another
connection is cached over it, or an event of its channel drops it from the cache. The module closes
none of these, so they are all the ways to leak one (`keepsTrack_iff`).
-/

namespace DeadLetter

open Transition

/-- The connection that a call has opened. -/
@[simp]
def Opening.connection : Opening → Option ℕ
  | .connect => none
  | .connected n | .createChannel n | .created n | .assert n _ _ | .asserted n _ => some n

namespace Link

variable {κ : Type} [DecidableEq κ] {topology : List Assertion} {s t : Link κ} {a : LinkAction κ}
  {o : LinkOutput κ}

/-- Who has the connections that were opened. -/
def custody (s : Link κ) : Custody κ ℕ where
  issued := {n | n < s.opened}
  isOpen := {n | (s.pairs n).connectionOpen = true}
  held c := (s.calls c).bind Opening.connection
  cached := s.connection

/-- The step lets go of no connection that is open. -/
def KeepsTrack (s : Link κ) : LinkAction κ → Prop
  | .reply c false => ∀ n, (s.calls c).bind Opening.connection = some n →
      (s.pairs n).connectionOpen = false
  | .resume c => match s.calls c with
    | some (.asserted _ []) =>
      ∀ m, s.connection = some m → (s.pairs m).connectionOpen = false
    | _ => True
  | .deliver n _ => s.connection = some n → (s.pairs n).connectionOpen = false
  | _ => True

/-! ## The parts of a step -/

theorem custody_setCall {c : κ} {u : Option Opening} : (s.setCall c u).custody
    = { s.custody with
        held := Function.update s.custody.held c (u.bind Opening.connection) } := by
  unfold custody
  congr 1
  funext d
  by_cases hd : d = c
  · subst hd
    simp [setCall]
  · simp [setCall, hd]

/-- A call that goes on holds what it held. -/
theorem custody_goOn {c : κ} {u : Opening}
    (h : (s.calls c).bind Opening.connection = u.connection) :
    (s.setCall c (some u)).custody = s.custody := by
  rw [custody_setCall, Option.bind_some, ← h]
  exact congrArg (fun held => { s.custody with held }) (Function.update_eq_self c s.custody.held)

omit [DecidableEq κ] in
theorem custody_setPair {n : ℕ} {f : Pair → Pair}
    (hf : ∀ p, (f p).connectionOpen = p.connectionOpen) : (s.setPair n f).custody = s.custody := by
  unfold custody
  congr 1
  ext m
  by_cases hm : m = n
  · subst hm
    simp [setPair, hf]
  · simp [setPair, hm]

theorem custody_connected {c : κ} : (({ s with opened := s.opened + 1 }.setPair s.opened fun p =>
      { p with connectionOpen := true }).setCall c (some (.connected s.opened))).custody
    = { s.custody with
        issued := insert s.opened s.custody.issued
        isOpen := insert s.opened s.custody.isOpen
        held := Function.update s.custody.held c (some s.opened) } := by
  rw [custody_setCall]
  simp only [custody, Custody.mk.injEq]
  refine ⟨?_, ?_, rfl, rfl⟩
  · ext n
    simp only [setPair, Set.mem_insert_iff, Set.mem_ofPred_eq]
    omega
  · ext n
    by_cases hn : n = s.opened
    · subst hn
      simp [setPair]
    · simp [setPair, hn]

omit [DecidableEq κ] in
theorem custody_lost {n : ℕ} {connection : Bool} {reasons : List Reason}
    (h : s.lost n connection reasons = some (t, o)) :
    ∃ u ⊆ s.custody.isOpen, t.custody = { s.custody with isOpen := u } := by
  simp only [Link.lost, Option.ite_none_right_eq_some] at h
  obtain ⟨-, h⟩ := h
  obtain ⟨rfl, -⟩ := Prod.mk.inj (Option.some.inj h)
  refine ⟨_, fun m hm => ?_, rfl⟩
  by_cases hmn : m = n
  · subst hmn
    simp only [setPair, Function.update_self, Set.mem_ofPred_eq, Bool.and_eq_true] at hm
    exact hm.1
  · simpa only [custody, setPair, Set.mem_ofPred_eq, Function.update_of_ne hmn] using hm

omit [DecidableEq κ] in
theorem invalidate_eq (hs : s.connection = s.channel) (hc : s.closingIntentionally = false)
    (n : ℕ) : (s.invalidate n).1
      = if s.connection = some n then { s with connection := none, channel := none } else s := by
  unfold invalidate
  by_cases hn : s.channel = some n <;> simp [hs, hc, hn]

/-! ## One step -/

/-- What a step does with the connections, and when it lets go of none that is open. -/
theorem move_step (ht : topology ≠ []) (hW : s.Watched) (hs : s.connection = s.channel)
    (ha : ∀ j, a ≠ .closeConnection j) (h : s.step topology a = some (t, o)) :
    ∃ care, Custody.Move s.custody care t.custody ∧ (care ↔ KeepsTrack s a) := by
  have stay : t.custody = s.custody → KeepsTrack s a →
      ∃ care, Custody.Move s.custody care t.custody ∧ (care ↔ KeepsTrack s a) :=
    fun he hk => ⟨True, he ▸ .stay, iff_of_true trivial hk⟩
  cases step_cases h with
  | found => exact stay rfl trivial
  | @connecting c hc =>
    refine stay ?_ trivial
    rw [custody_goOn]
    · rfl
    · simp [hc]
  | @rejected c u hc =>
    refine ⟨_, by rw [custody_setCall]; exact .giveUp c, ?_⟩
    simp [KeepsTrack, custody]
  | @connected c hc =>
    have hheld : s.custody.held c = none := by simp [custody, hc]
    have hfresh : s.opened ∉ s.custody.issued := by simp [custody]
    refine ⟨True, ?_, iff_of_true trivial trivial⟩
    rw [custody_connected]
    exact .acquire c s.opened hheld hfresh
  | @channelCreated c n hc =>
    refine stay ?_ trivial
    rw [custody_goOn, custody_setPair (by simp)]
    simp [setPair, hc]
  | assertionReplied hc => exact stay (custody_goOn (by simp [hc])) trivial
  | creating hc =>
    exact stay (custody_goOn (by simp [hc])) (by simp [KeepsTrack, hc])
  | listened hc =>
    obtain ⟨assertion, rest, rfl⟩ := List.exists_cons_of_ne_nil ht
    refine stay ?_ (by simp [KeepsTrack, hc])
    rw [proceed, custody_goOn, custody_setPair (by simp)]
    simp [setPair, hc]
  | @proceeded c n rest hc =>
    cases rest with
    | nil =>
      have hheld : s.custody.held c = some n := by simp [custody, hc]
      refine ⟨_, by rw [proceed, custody_setCall]; exact .cache c n hheld, ?_⟩
      simp [custody, KeepsTrack, hc]
    | cons assertion rest =>
      exact stay (custody_goOn (by simp [hc])) (by simp [KeepsTrack, hc])
  | lost =>
    obtain ⟨u, hu, he⟩ := custody_lost h
    exact ⟨True, he ▸ .shut u hu, iff_of_true trivial trivial⟩
  | @unheard n r he hl =>
    refine stay rfl fun hn => ?_
    rw [hW.cached n (hs ▸ hn)] at hl
    exact absurd hl (by simp)
  | @heard n r =>
    have he := invalidate_eq (s := { s with events := s.events.erase (n, r) }) hs hW.notClosing n
    rw [he] at stay ⊢
    by_cases hn : s.connection = some n
    · refine ⟨_, by rw [if_pos hn]; exact .drop, ?_⟩
      simp [custody, KeepsTrack, hn]
    · exact stay (by rw [if_neg hn]; rfl) fun hn' => absurd hn' hn
  | closing => exact absurd rfl (ha _)
  | closeReplied h => simp [closeReply, hW.noCloses] at h
  | closeResumed h => simp [closeResume, hW.noCloses] at h

/-! ## Runs -/

/-- Every connection that is open is cached, or held by the call that opened it. -/
def Tracked (s : Link κ) : Prop := s.custody.Tracked

/-- What a run without `closeConnection` keeps in any case. -/
structure Accountable (s : Link κ) : Prop where
  watched : s.Watched
  same : s.connection = s.channel
  owned : s.custody.Owned

omit [DecidableEq κ] in
theorem accountable_init : ({} : Link κ).Accountable :=
  ⟨⟨rfl, fun _ => rfl, listening_init.cached, listening_init.opening⟩, rfl,
    fun _ _ h => by simp [custody] at h, fun _ h => by simp [custody] at h,
    fun _ _ _ h => by simp [custody] at h, fun _ _ h => by simp [custody] at h⟩

omit [DecidableEq κ] in
theorem tracked_init : ({} : Link κ).Tracked := fun _ h => by simp [custody] at h

theorem Accountable.step (ht : topology ≠ []) (hI : s.Accountable) (hT : s.Tracked)
    (ha : ∀ j, a ≠ .closeConnection j) (h : s.next topology a = some t) :
    t.Accountable ∧ (t.Tracked ↔ KeepsTrack s a) := by
  obtain ⟨o, h⟩ := next_eq h
  obtain ⟨care, hm, hcare⟩ := move_step ht hI.watched hI.same ha h
  exact ⟨⟨hI.watched.step ha h, same_step hI.same h, hI.owned.move hm⟩,
    (hm.tracked_iff hI.owned hT).trans hcare⟩

/-- In a run without `closeConnection`, every connection stays tracked just where each step lets go
of none that is open. -/
theorem tracked_iff_keepsTrack (ht : topology ≠ []) {as : List (LinkAction κ)}
    (ha : ∀ a ∈ as, ∀ j, a ≠ .closeConnection j) :
    Steps (next topology) (fun _ _ t => t.Tracked) {} as
      ↔ Steps (next topology) (fun s a _ => KeepsTrack s a) {} as := by
  have hdomain : Steps (next topology) (fun _ a _ => ∀ j, a ≠ .closeConnection j) {} as :=
    steps_of_forall ha
  have hiff : Steps (next topology)
        (fun _ a t => (∀ j, a ≠ .closeConnection j) ∧ t.Tracked) {} as
      ↔ Steps (next topology)
        (fun s a _ => (∀ j, a ≠ .closeConnection j) ∧ KeepsTrack s a) {} as :=
    steps_congr (I := fun s => s.Accountable ∧ s.Tracked)
      (fun s a t hI hR h => ⟨(hI.1.step ht hI.2 hR.1 h).1, hR.2⟩)
      (fun s a t hI h => and_congr_right fun ha => (hI.1.step ht hI.2 ha h).2)
      ⟨accountable_init, tracked_init⟩
  exact ⟨fun h => (hiff.1 (hdomain.and h)).mono fun _ _ _ h => h.2,
    fun h => (hiff.2 (hdomain.and h)).mono fun _ _ _ h => h.2⟩

omit [DecidableEq κ] in
theorem Tracked.cached (hT : s.Tracked) (hc : ∀ c, s.calls c = none) {n : ℕ}
    (hn : (s.pairs n).connectionOpen = true) : s.connection = some n := by
  rcases hT n hn with h | ⟨c, h⟩
  · exact h
  · simp [custody, hc] at h

/-- In a run whose steps let go of no open connection, what is open once nothing is in progress is
the cached connection: there is one at most. -/
theorem only_cached_open (ht : topology ∈ [mainTopology, workerTopology])
    (as : List (LinkAction κ)) (ha : ∀ a ∈ as, ∀ j, a ≠ .closeConnection j)
    (h : exec (next topology) {} as = some s)
    (hR : Steps (next topology) (fun s a _ => KeepsTrack s a) {} as) (hq : s.Quiet) :
    (∀ n, (s.pairs n).connectionOpen = true → s.connection = some n)
      ∧ ∀ m n, (s.pairs m).connectionOpen = true → (s.pairs n).connectionOpen = true → m = n := by
  have hdomain : Steps (next topology) (fun _ a _ => ∀ j, a ≠ .closeConnection j) {} as :=
    steps_of_forall ha
  have hstep : ∀ (s : Link κ) a t, s.Accountable ∧ s.Tracked →
      (∀ j, a ≠ .closeConnection j) ∧ KeepsTrack s a → next topology s a = some t →
      t.Accountable ∧ t.Tracked := by
    intro s a t hI hR h
    obtain ⟨hA, hiff⟩ := hI.1.step (topology_ne_nil ht) hI.2 hR.1 h
    exact ⟨hA, hiff.2 hR.2⟩
  have hT := (exec_inv_of_steps hstep ⟨accountable_init, tracked_init⟩ (hdomain.and hR) h).2
  refine ⟨fun n hn => hT.cached hq.calls hn, fun m n hm hn => ?_⟩
  exact Option.some.inj ((hT.cached hq.calls hm).symm.trans (hT.cached hq.calls hn))

/-- The connection is lost, and another call opens one. -/
def reconnecting : List (LinkAction ℕ) :=
  asserting 0 ++ [.resume 0, .lost 0 true [.connectionClosed], .deliver 0 .connectionClosed]
    ++ asserting 1 ++ [.resume 1]

theorem only_cached_open_reconnecting : ∃ s : Link ℕ,
    exec (next mainTopology) {} reconnecting = some s ∧ s.connection = some 1
      ∧ ∀ n, (s.pairs n).connectionOpen = true → n = 1 := by
  refine ⟨_, rfl, rfl, fun n hn => ?_⟩
  refine (only_cached_open (.head _) reconnecting (by simp [reconnecting, asserting]) rfl ?_
    ⟨rfl, fun c => ?_, fun _ => rfl⟩).2 n 1 hn rfl
  · repeat' first
      | exact trivial | exact fun _ => rfl | exact fun _ (h : none = some _) => nomatch h
      | refine And.intro ?_ ?_
  · rcases c with _ | _ | c <;> rfl

/-- The broker refuses the first assertion and closes the channel, not its connection. -/
def assertionRefused : List (LinkAction ℕ) :=
  [.getChannel 0, .reply 0 true, .resume 0, .reply 0 true, .resume 0,
    .lost 0 false [.channelError, .channelClosed], .deliver 0 .channelError,
    .deliver 0 .channelClosed, .reply 0 false]

theorem refused_assertion_leaks : ∃ s : Link ℕ,
    exec (next mainTopology) {} assertionRefused = some s ∧ s.Quiet
      ∧ ¬ ∀ n, (s.pairs n).connectionOpen = true → s.connection = some n := by
  refine ⟨_, rfl, ⟨rfl, fun c => ?_, fun _ => rfl⟩, fun h => ?_⟩
  · rcases c with _ | c <;> rfl
  · exact nomatch (h 0 rfl : none = some 0)

end Link

end DeadLetter
