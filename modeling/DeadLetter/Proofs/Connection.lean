import DeadLetter.Connection

/-!
# What is cached is watched

A connection has its listeners before it is cached (`Link.Watched`), so an event of the cached
connection always invalidates it while the module is not being closed. A connection that stops
being open leaves an event to deliver.
-/

namespace DeadLetter

namespace Link

variable {κ : Type} [DecidableEq κ] (topology : List Assertion) (s : Link κ)

inductive LinkStep : LinkAction κ → Link κ → LinkOutput κ → Prop
  | found {c : κ} {n : ℕ} (hc : s.calls c = none) (hn : s.channel = some n) :
      LinkStep (.getChannel c) s (.resolved c n)
  | connecting {c : κ} (hc : s.calls c = none) (hn : s.channel = none) :
      LinkStep (.getChannel c)
        ({ s with closingIntentionally := false }.setCall c (some .connect)) .nothing
  | rejected {c : κ} {u : Opening} (hc : s.calls c = some u) :
      LinkStep (.reply c false) (s.setCall c none) (.rejected c)
  | connected {c : κ} (hc : s.calls c = some .connect) :
      LinkStep (.reply c true) (({ s with opened := s.opened + 1 }.setPair s.opened fun p =>
        { p with connectionOpen := true }).setCall c (some (.connected s.opened))) .nothing
  | channelCreated {c : κ} {n : ℕ} (hc : s.calls c = some (.createChannel n))
      (ho : (s.pairs n).connectionOpen = true) :
      LinkStep (.reply c true) ((s.setPair n fun p => { p with channelOpen := true }).setCall c
        (some (.created n))) .nothing
  | assertionReplied {c : κ} {n : ℕ} {a : Assertion} {rest : List Assertion}
      (hc : s.calls c = some (.assert n a rest)) (ho : (s.pairs n).isOpen = true) :
      LinkStep (.reply c true) (s.setCall c (some (.asserted n rest))) .nothing
  | creating {c : κ} {n : ℕ} (hc : s.calls c = some (.connected n)) :
      LinkStep (.resume c) (s.setCall c (some (.createChannel n))) .nothing
  | listened {c : κ} {n : ℕ} (hc : s.calls c = some (.created n)) :
      LinkStep (.resume c)
        ((s.setPair n fun p => { p with listening := true }).proceed c n topology).1
        ((s.setPair n fun p => { p with listening := true }).proceed c n topology).2
  | proceeded {c : κ} {n : ℕ} {rest : List Assertion} (hc : s.calls c = some (.asserted n rest)) :
      LinkStep (.resume c) (s.proceed c n rest).1 (s.proceed c n rest).2
  | lost {n : ℕ} {connection : Bool} {reasons : List Reason} (hr : reasons ≠ [])
      (ho : (if connection then (s.pairs n).connectionOpen else (s.pairs n).channelOpen) = true) :
      LinkStep (.lost n connection reasons)
        ({ s with events := s.events ++ reasons.map fun r => (n, r) }.setPair n fun p =>
          { p with
            connectionOpen := p.connectionOpen && !connection
            channelOpen := false }) .nothing
  | unheard {n : ℕ} {r : Reason} (he : (n, r) ∈ s.events) (hl : (s.pairs n).listening = false) :
      LinkStep (.deliver n r) { s with events := s.events.erase (n, r) } .nothing
  | heard {n : ℕ} {r : Reason} (he : (n, r) ∈ s.events) (hl : (s.pairs n).listening = true) :
      LinkStep (.deliver n r) (invalidate { s with events := s.events.erase (n, r) } n).1
        (invalidate { s with events := s.events.erase (n, r) } n).2
  | closing {j : ℕ} {t : Link κ} {o : LinkOutput κ} (h : s.closeConnection j = some (t, o)) :
      LinkStep (.closeConnection j) t o
  | closeReplied {j : ℕ} {ok : Bool} {t : Link κ} {o : LinkOutput κ}
      (h : s.closeReply j ok = some (t, o)) : LinkStep (.closeReply j ok) t o
  | closeResumed {j : ℕ} {t : Link κ} {o : LinkOutput κ} (h : s.closeResume j = some (t, o)) :
      LinkStep (.closeResume j) t o

variable {topology s} {t : Link κ} {a : LinkAction κ} {o : LinkOutput κ}

theorem getChannel_cases {c : κ} (h : s.getChannel c = some (t, o)) :
    LinkStep topology s (.getChannel c) t o := by
  unfold getChannel at h
  split at h
  · simp at h
  · rename_i hc hn
    obtain ⟨rfl, rfl⟩ := Prod.mk.inj (Option.some.inj h)
    exact .found hc hn
  · rename_i hc hn
    obtain ⟨rfl, rfl⟩ := Prod.mk.inj (Option.some.inj h)
    exact .connecting hc hn

theorem reply_cases {c : κ} {ok : Bool} (h : s.reply c ok = some (t, o)) :
    LinkStep topology s (.reply c ok) t o := by
  unfold reply at h
  rcases hc : s.calls c with _ | u <;> simp only [hc, reduceCtorEq] at h
  cases ok
  · cases u <;> simp only [Option.some.injEq, Prod.mk.injEq, reduceCtorEq] at h <;>
      obtain ⟨rfl, rfl⟩ := h <;> exact .rejected hc
  · cases u <;> simp only [Option.some.injEq, Prod.mk.injEq, reduceCtorEq] at h
    · obtain ⟨rfl, rfl⟩ := h
      exact .connected hc
    · split_ifs at h with ho
      obtain ⟨rfl, rfl⟩ := Prod.mk.inj (Option.some.inj h)
      exact .channelCreated hc ho
    · split_ifs at h with ho
      obtain ⟨rfl, rfl⟩ := Prod.mk.inj (Option.some.inj h)
      exact .assertionReplied hc ho

theorem resume_cases {c : κ} (h : s.resume topology c = some (t, o)) :
    LinkStep topology s (.resume c) t o := by
  unfold resume at h
  rcases hc : s.calls c with _ | u <;> simp only [hc, reduceCtorEq] at h
  cases u <;> simp only [Option.some.injEq, reduceCtorEq] at h
  · obtain ⟨rfl, rfl⟩ := Prod.mk.inj h
    exact .creating hc
  · obtain ⟨rfl, rfl⟩ := Prod.mk.inj h
    exact .listened hc
  · obtain ⟨rfl, rfl⟩ := Prod.mk.inj h
    exact .proceeded hc

theorem step_cases (h : s.step topology a = some (t, o)) : LinkStep topology s a t o := by
  cases a with
  | getChannel c => exact getChannel_cases h
  | reply c ok => exact reply_cases h
  | resume c => exact resume_cases h
  | lost n connection reasons =>
    simp only [step, Link.lost, Option.ite_none_right_eq_some] at h
    obtain ⟨⟨hr, ho⟩, h⟩ := h
    obtain ⟨rfl, rfl⟩ := Prod.mk.inj (Option.some.inj h)
    exact .lost hr ho
  | deliver n r =>
    simp only [step, Link.deliver] at h
    split_ifs at h with he hl <;> simp only [Option.some.injEq] at h <;>
      obtain ⟨rfl, rfl⟩ := Prod.mk.inj h
    · exact .heard he hl
    · exact .unheard he (by simpa using hl)
  | closeConnection j => exact .closing h
  | closeReply j ok => exact .closeReplied h
  | closeResume j => exact .closeResumed h

/-! ## Watched -/

def asserts : Opening → Option ℕ
  | .assert n _ _ | .asserted n _ => some n
  | _ => none

/-- A connection that is cached, or about to be, has its listeners. -/
structure Listening (s : Link κ) : Prop where
  cached : ∀ n, s.channel = some n → (s.pairs n).listening = true
  opening : ∀ c u, s.calls c = some u → ∀ n, asserts u = some n → (s.pairs n).listening = true

omit [DecidableEq κ] in
theorem listening_init : ({} : Link κ).Listening :=
  ⟨fun _ h => by simp at h, fun _ _ h => by simp at h⟩

theorem Listening.setCall (hI : s.Listening) {c : κ} {u : Option Opening}
    (hu : ∀ n, u.bind asserts = some n → (s.pairs n).listening = true) :
    (s.setCall c u).Listening := by
  refine ⟨hI.cached, fun d v hv n hn => ?_⟩
  by_cases hd : d = c
  · subst hd
    simp only [Link.setCall, Function.update_self] at hv
    exact hu n (by rw [hv, Option.bind_some, hn])
  · simp only [Link.setCall, Function.update_of_ne hd] at hv
    exact hI.opening d v hv n hn

omit [DecidableEq κ] in
theorem listening_setPair {n m : ℕ} {f : Pair → Pair} (hf : ∀ p, p.listening = true →
    (f p).listening = true) (h : (s.pairs m).listening = true) :
    ((s.setPair n f).pairs m).listening = true := by
  by_cases hm : m = n
  · subst hm
    simpa only [setPair, Function.update_self] using hf _ h
  · simpa only [setPair, Function.update_of_ne hm] using h

omit [DecidableEq κ] in
theorem Listening.setPair (hI : s.Listening) {n : ℕ} {f : Pair → Pair}
    (hf : ∀ p, p.listening = true → (f p).listening = true) : (s.setPair n f).Listening :=
  ⟨fun m hm => listening_setPair hf (hI.cached m hm),
    fun c u hu m hm => listening_setPair hf (hI.opening c u hu m hm)⟩

theorem Listening.proceed (hI : s.Listening) {c : κ} {n : ℕ} {rest : List Assertion}
    (hn : (s.pairs n).listening = true) : (s.proceed c n rest).1.Listening := by
  cases rest with
  | nil =>
    have : Listening { s with connection := some n, channel := some n } :=
      ⟨fun m hm => Option.some.inj hm ▸ hn, hI.opening⟩
    exact this.setCall (by simp)
  | cons a rest => exact hI.setCall fun m hm => Option.some.inj hm ▸ hn

omit [DecidableEq κ] in
theorem Listening.invalidate (hI : s.Listening) (n : ℕ) : (s.invalidate n).1.Listening := by
  unfold Link.invalidate
  split_ifs
  · exact hI
  · exact hI
  all_goals
    refine ⟨fun m hm => ?_, hI.opening⟩
    simp_all [hI.cached]

omit [DecidableEq κ] in
theorem Listening.lost (hI : s.Listening) {n : ℕ} {connection : Bool} {reasons : List Reason}
    (h : s.lost n connection reasons = some (t, o)) : t.Listening := by
  simp only [Link.lost, Option.ite_none_right_eq_some] at h
  obtain ⟨-, h⟩ := h
  obtain ⟨rfl, -⟩ := Prod.mk.inj (Option.some.inj h)
  have : Listening { s with events := s.events ++ reasons.map fun r => (n, r) } :=
    ⟨hI.cached, hI.opening⟩
  exact this.setPair (by simp)

omit [DecidableEq κ] in
/-- A reply to `closeConnection`: it goes on where nothing was cached, or fails, or a `close` was
done. -/
theorem closeReply_cases {j : ℕ} {ok : Bool} (h : s.closeReply j ok = some (t, o)) :
    (∃ u, t = s.setClose j (some u)
        ∧ (s.closes j = some (.channel none) ∨ s.closes j = some (.connection none)))
      ∨ (ok = false ∧ t = s.setClose j none
        ∧ ∃ n, s.closes j = some (.channel (some n)) ∨ s.closes j = some (.connection (some n)))
      ∨ ok = true ∧ ∃ n connection r l o' u, s.lost n connection [r] = some (l, o')
        ∧ t = l.setClose j (some u) := by
  unfold closeReply at h
  split at h
  · rename_i hc
    exact .inl ⟨_, (Prod.mk.inj (Option.some.inj h)).1.symm, .inl hc⟩
  · rename_i hc
    exact .inl ⟨_, (Prod.mk.inj (Option.some.inj h)).1.symm, .inr hc⟩
  · rename_i n hc
    exact .inr (.inl ⟨rfl, (Prod.mk.inj (Option.some.inj h)).1.symm, n, .inl hc⟩)
  · rename_i n hc
    exact .inr (.inl ⟨rfl, (Prod.mk.inj (Option.some.inj h)).1.symm, n, .inr hc⟩)
  · obtain ⟨⟨l, o'⟩, hl, he⟩ := Option.map_eq_some_iff.1 h
    exact .inr (.inr ⟨rfl, _, _, _, l, o', _, hl, (Prod.mk.inj he).1.symm⟩)
  · obtain ⟨⟨l, o'⟩, hl, he⟩ := Option.map_eq_some_iff.1 h
    exact .inr (.inr ⟨rfl, _, _, _, l, o', _, hl, (Prod.mk.inj he).1.symm⟩)
  · simp at h

omit [DecidableEq κ] in
/-- `closeConnection` resumes: it goes on to the connection, or clears the cache and returns. -/
theorem closeResume_cases {j : ℕ} (h : s.closeResume j = some (t, o)) :
    t = s.setClose j (some (.connection s.connection))
      ∨ t = { s with connection := none, channel := none }.setClose j none := by
  unfold closeResume at h
  split at h
  · exact .inl (Prod.mk.inj (Option.some.inj h)).1.symm
  · exact .inr (Prod.mk.inj (Option.some.inj h)).1.symm
  · simp at h

omit [DecidableEq κ] in
theorem closeConnection_eq {j : ℕ} (h : s.closeConnection j = some (t, o)) :
    t = { s with closingIntentionally := true }.setClose j (some (.channel s.channel)) := by
  unfold closeConnection at h
  split at h
  · simp at h
  · exact (Prod.mk.inj (Option.some.inj h)).1.symm

theorem Listening.step (hI : s.Listening) (h : s.step topology a = some (t, o)) :
    t.Listening := by
  cases step_cases h with
  | found => exact hI
  | connecting =>
    have : Listening { s with closingIntentionally := false } := ⟨hI.cached, hI.opening⟩
    exact this.setCall (by simp [asserts])
  | rejected => exact hI.setCall (by simp)
  | connected =>
    have : Listening { s with opened := s.opened + 1 } := ⟨hI.cached, hI.opening⟩
    exact (this.setPair (by simp)).setCall (by simp [asserts])
  | channelCreated => exact (hI.setPair (by simp)).setCall (by simp [asserts])
  | assertionReplied hc => exact hI.setCall fun m hm => hI.opening _ _ hc m hm
  | creating => exact hI.setCall (by simp [asserts])
  | listened => exact (hI.setPair (by simp)).proceed (by simp [Link.setPair])
  | proceeded hc => exact hI.proceed (hI.opening _ _ hc _ rfl)
  | lost => exact hI.lost h
  | unheard => exact ⟨hI.cached, hI.opening⟩
  | @heard n r =>
    have : Listening { s with events := s.events.erase (n, r) } := ⟨hI.cached, hI.opening⟩
    exact this.invalidate n
  | closing h =>
    obtain rfl := closeConnection_eq h
    exact ⟨hI.cached, hI.opening⟩
  | closeReplied h =>
    rcases closeReply_cases h with ⟨_, rfl, -⟩ | ⟨-, rfl, -⟩ | ⟨-, _, _, _, l, _, _, hl, rfl⟩
    · exact ⟨hI.cached, hI.opening⟩
    · exact ⟨hI.cached, hI.opening⟩
    · exact ⟨(hI.lost hl).cached, (hI.lost hl).opening⟩
  | closeResumed h =>
    rcases closeResume_cases h with rfl | rfl
    · exact ⟨hI.cached, hI.opening⟩
    · exact ⟨fun _ hn => by simp [setClose] at hn, hI.opening⟩

/-- The module is not being closed, and a connection that is cached, or about to be, has its
listeners. -/
structure Watched (s : Link κ) : Prop where
  notClosing : s.closingIntentionally = false
  noCloses : ∀ j, s.closes j = none
  cached : ∀ n, s.channel = some n → (s.pairs n).listening = true
  opening : ∀ c u, s.calls c = some u → ∀ n, asserts u = some n → (s.pairs n).listening = true

theorem notClosing_step (hc : s.closingIntentionally = false) (hj : ∀ j, s.closes j = none)
    (ha : ∀ j, a ≠ .closeConnection j) (h : s.step topology a = some (t, o)) :
    t.closingIntentionally = false ∧ ∀ j, t.closes j = none := by
  cases step_cases h with
  | @listened c n =>
    cases topology <;> exact ⟨hc, hj⟩
  | @proceeded c n rest =>
    cases rest <;> exact ⟨hc, hj⟩
  | heard =>
    unfold Link.invalidate
    split_ifs <;> exact ⟨hc, hj⟩
  | closing => exact absurd rfl (ha _)
  | closeReplied h => simp [closeReply, hj] at h
  | closeResumed h => simp [closeResume, hj] at h
  | connecting => exact ⟨rfl, hj⟩
  | _ => exact ⟨hc, hj⟩

theorem Watched.step (hI : s.Watched) (ha : ∀ j, a ≠ .closeConnection j)
    (h : s.step topology a = some (t, o)) : t.Watched := by
  have hL : s.Listening := ⟨hI.cached, hI.opening⟩
  obtain ⟨hc, hj⟩ := notClosing_step hI.notClosing hI.noCloses ha h
  exact ⟨hc, hj, (hL.step h).cached, (hL.step h).opening⟩

/-- An event of the cached connection invalidates it. -/
theorem Watched.invalidated (hI : s.Watched) {n : ℕ} {r : Reason} (hn : s.channel = some n)
    (h : s.step topology (.deliver n r) = some (t, o)) : o = .invalidated := by
  cases step_cases h with
  | unheard he hl =>
    rw [hI.cached n hn] at hl
    exact absurd hl (by simp)
  | heard => simp [Link.invalidate, hn, hI.notClosing]

/-! ## Open, or to be told of -/

omit [DecidableEq κ] in
theorem Told.setPair {n m : ℕ} {f : Pair → Pair} (h : s.Told m)
    (hf : ∀ p, p.isOpen = true → (f p).isOpen = true) : (s.setPair n f).Told m := by
  refine h.imp_left fun ho => ?_
  by_cases hm : m = n
  · subst hm
    simpa only [Link.setPair, Function.update_self] using hf _ ho
  · simpa only [Link.setPair, Function.update_of_ne hm] using ho

omit [DecidableEq κ] in
theorem told_setClose {j : ℕ} {u : Option Closing} {m : ℕ} :
    (s.setClose j u).Told m ↔ s.Told m := Iff.rfl

theorem told_setCall {c : κ} {u : Option Opening} {m : ℕ} :
    (s.setCall c u).Told m ↔ s.Told m := Iff.rfl

theorem Told.proceed {c : κ} {n m : ℕ} {rest : List Assertion} (h : s.Told m) :
    (s.proceed c n rest).1.Told m := by
  cases rest <;> exact h

omit [DecidableEq κ] in
theorem told_invalidate {n m : ℕ} : (s.invalidate n).1.Told m ↔ s.Told m := by
  unfold invalidate
  split_ifs <;> rfl

omit [DecidableEq κ] in
theorem Told.lost {m n : ℕ} {connection : Bool} {reasons : List Reason} (hm : s.Told m)
    (h : s.lost n connection reasons = some (t, o)) : t.Told m := by
  simp only [Link.lost, Option.ite_none_right_eq_some] at h
  obtain ⟨⟨hr, -⟩, h⟩ := h
  obtain ⟨rfl, -⟩ := Prod.mk.inj (Option.some.inj h)
  obtain ⟨r, rs, rfl⟩ := List.exists_cons_of_ne_nil hr
  by_cases hmn : m = n
  · subst hmn
    exact .inr (by simp [Link.setPair])
  · refine hm.imp (fun ho => ?_) fun he => ?_
    · simpa only [Link.setPair, Function.update_of_ne hmn] using ho
    · simpa only [Link.setPair, List.map_append] using List.mem_append_left _ he

omit [DecidableEq κ] in
/-- The delivery of another connection's event leaves it so. -/
theorem Told.erase {m n : ℕ} {r : Reason} (hm : s.Told m) (hn : n ≠ m) :
    Told { s with events := s.events.erase (n, r) } m := by
  refine hm.imp_right fun he => ?_
  obtain ⟨⟨_, r'⟩, hr, rfl⟩ := List.mem_map.1 he
  refine List.mem_map.2 ⟨_, (List.mem_erase_of_ne ?_).2 hr, rfl⟩
  exact fun he => hn (Prod.mk.inj he).1.symm

/-- A connection stays so, until its event is delivered. -/
theorem Told.step {m : ℕ} (hm : s.Told m) (h : s.step topology a = some (t, o)) :
    t.Told m ∨ ∃ r, a = .deliver m r := by
  cases step_cases h with
  | connected =>
    have : Told { s with opened := s.opened + 1 } m := hm
    exact .inl (told_setCall.2 (this.setPair (by simp [Pair.isOpen])))
  | channelCreated => exact .inl (told_setCall.2 (hm.setPair (by simp +contextual [Pair.isOpen])))
  | listened => exact .inl (Told.proceed (hm.setPair fun p hp => hp))
  | proceeded => exact .inl hm.proceed
  | lost => exact .inl (hm.lost h)
  | @unheard n r =>
    by_cases hn : n = m
    · exact .inr ⟨r, by rw [hn]⟩
    · exact .inl (hm.erase hn)
  | @heard n r =>
    by_cases hn : n = m
    · exact .inr ⟨r, by rw [hn]⟩
    · exact .inl (told_invalidate.2 (hm.erase hn))
  | closing h =>
    obtain rfl := closeConnection_eq h
    exact .inl hm
  | closeReplied h =>
    rcases closeReply_cases h with ⟨_, rfl, -⟩ | ⟨-, rfl, -⟩ | ⟨-, _, _, _, l, _, _, hl, rfl⟩
    · exact .inl hm
    · exact .inl hm
    · exact .inl (told_setClose.2 (hm.lost hl))
  | closeResumed h =>
    rcases closeResume_cases h with rfl | rfl <;> exact .inl hm
  | _ => exact .inl hm

end Link

end DeadLetter
