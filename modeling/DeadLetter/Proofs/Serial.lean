import DeadLetter.Proofs.Transaction

/-!
# The calls of the API, one after the other

Each call that returns does all it does in one of its own statements: a row that it returns is put
in with its event when it commits, and a `null` is what its `UPDATE` found. So the tables are what
the commits make of them in their order. A row's lock is held by the replay that changed it and no
longer than that runs, and its holder never waits, so neither does anyone wait forever.
-/

namespace DeadLetter

open Transition

/-- The phases of a transaction that may have a row locked. -/
def TxPhase.holds : TxPhase → Bool
  | .insertEvent _ _ | .commit (some _) | .rollback => true
  | _ => false

/-- The statements that a call has before it at most, whatever comes of each. -/
def TxPhase.ahead : TxPhase → ℕ
  | .connect => 6
  | .begin => 5
  | .change _ => 4
  | .insertEvent _ _ => 3
  | .commit _ => 2
  | .rollback => 1
  | .done _ | .crashed => 0

/-- What a call in this phase returns if it returns. -/
def TxPhase.answer : TxPhase → Option (Option Job)
  | .commit none => some none
  | .done (.returned result) => some result
  | _ => none

namespace Server

variable {s t : Server} {x y : ℕ} {tx : Tx}

/-- Whether call `x` has returned a row. -/
def returnsRow (s : Server) (x : ℕ) : Bool :=
  match s.txs x with
  | some ⟨_, .done (.returned (some _))⟩ => true
  | _ => false

/-- What a step writes to the tables, and the call it is one of, if of the API. -/
def committed (s : Server) (a : ServerAction) (t : Server) : List (Option ℕ × DbAction) :=
  match a with
  | .statement x _ _ => match s.txs x with
    | some ⟨call, .commit (some (job, event))⟩ =>
      if t.returnsRow x then [(some x, .commit ⟨job.id, job.updatedAt, call.op⟩ event.id)] else []
    | _ => []
  | .worker c => [(none, .call c)]
  | .dispatch r a => [(none, .dispatch s.now r a)]
  | _ => []

/-- The call, made at once where the tables are `d`, returns this and leaves them as `d'`. -/
def Answers (call : ApiCall) (d d' : Db) : Option Job → Prop
  | some job => (Call.run d.jobs ⟨job.id, job.updatedAt, call.op⟩).2 = some job
      ∧ ∃ eventId, d.step (.commit ⟨job.id, job.updatedAt, call.op⟩ eventId) = some d'
  | none => d' = d ∧ ∃ id begunAt, call = .claimReplay id
      ∧ (Call.run d.jobs ⟨id, begunAt, .claimReplay⟩).2 = none

/-- One of the call's own statements in the run does what the call does. -/
def Point (as : List ServerAction) (x : ℕ) (call : ApiCall) (result : Option Job) : Prop :=
  ∃ bs ok uuid cs u v, as = bs ++ .statement x ok uuid :: cs ∧ exec step init bs = some u
    ∧ u.step (.statement x ok uuid) = some v ∧ Answers call u.db v.db result

theorem Point.append {as : List ServerAction} {call : ApiCall} {result : Option Job}
    (h : Point as x call result) (a : ServerAction) : Point (as ++ [a]) x call result := by
  obtain ⟨bs, ok, uuid, cs, u, v, rfl, hu, hv, ha⟩ := h
  exact ⟨bs, ok, uuid, cs ++ [a], u, v, by simp, hu, hv, ha⟩

/-- The commits in their order make the tables, one for each call that returned a row, and every
call that returned has done at once what it did. -/
structure Serialized (as : List ServerAction) (s : Server) : Prop where
  serial : exec Db.step Db.init ((trace step committed init as).map Prod.snd) = some s.db
  once : ∀ x, (trace step committed init as).countP (fun c => c.1 = some x)
    = if s.returnsRow x then 1 else 0
  answered : ∀ x tx result, s.txs x = some tx → tx.phase = .done (.returned result) →
    Point as x tx.call result

/-! ## Where a call does what it does -/

theorem setPhase_self {phase : TxPhase} : (s.setPhase x tx phase).txs x = some { tx with phase } :=
  Function.update_self ..

/-- A commit of a job and its event puts them in, or the transaction is to be rolled back. -/
theorem statement_commit {call : ApiCall} {job : Job} {event : OutboxEvent} {ok : Bool}
    {uuid : Uuid} (h : s.statement x ⟨call, .commit (some (job, event))⟩ ok uuid = some t) :
    t = s.setPhase x ⟨call, .commit (some (job, event))⟩ .rollback
      ∨ ∃ db, install s.db call job event = some db
        ∧ t = release { s.setPhase x ⟨call, .commit (some (job, event))⟩
            (.done (.returned (some job))) with db } x := by
  delta statement at h
  dsimp only at h
  rcases hi : install s.db call job event with _ | db <;> rw [hi] at h
  · exact .inl (Option.some.inj h).symm
  · cases ok
    · exact .inl (Option.some.inj h).symm
    · exact .inr ⟨db, rfl, (Option.some.inj h).symm⟩

theorem statement_answer (hh : Held s.db s.locks x tx) {ok : Bool} {uuid : Uuid}
    (h : s.statement x tx ok uuid = some t) : ∃ phase, t.txs x = some { tx with phase }
      ∧ ∀ result, phase.answer = some result →
        tx.phase.answer = some result ∨ Answers tx.call s.db t.db result := by
  obtain ⟨call, phase⟩ := tx
  cases phase with
  | connect =>
    obtain rfl := Option.some.inj h
    refine ⟨_, setPhase_self, ?_⟩
    cases ok <;> simp [TxPhase.answer]
  | begin =>
    obtain rfl := Option.some.inj h
    refine ⟨_, setPhase_self, ?_⟩
    cases ok <;> simp [TxPhase.answer]
  | change begunAt =>
    cases ok
    · obtain rfl := Option.some.inj h
      exact ⟨_, setPhase_self, by simp [TxPhase.answer]⟩
    · replace h : s.change x ⟨call, .change begunAt⟩ begunAt uuid = some t := h
      unfold change at h
      cases call with
      | createJob type payload =>
        rcases hg : s.db.jobs.get uuid with _ | i <;> simp only [hg, Option.some.injEq] at h <;>
          subst h <;> exact ⟨_, setPhase_self, by simp [TxPhase.answer]⟩
      | claimReplay id =>
        rcases hr : ((claimReplayUpdate begunAt).run s.db.jobs id).2 with _ | job <;>
          rcases hl : s.locks id with _ | y <;>
          simp only [hr, hl, Option.some.injEq, reduceCtorEq] at h <;> subst h
        · refine ⟨_, setPhase_self, fun result hres => .inr ?_⟩
          obtain rfl : none = result := Option.some.inj hres
          exact ⟨rfl, id, begunAt, rfl, hr⟩
        · refine ⟨_, setPhase_self, fun result hres => .inr ?_⟩
          obtain rfl : none = result := Option.some.inj hres
          exact ⟨rfl, id, begunAt, rfl, hr⟩
        · exact ⟨_, setPhase_self, by simp [TxPhase.answer]⟩
  | insertEvent begunAt job =>
    obtain rfl := Option.some.inj h
    refine ⟨_, setPhase_self, ?_⟩
    split_ifs <;> simp [TxPhase.answer]
  | commit written =>
    rcases written with _ | ⟨job, event⟩
    · obtain rfl := Option.some.inj h
      refine ⟨_, setPhase_self, ?_⟩
      cases ok <;> simp [TxPhase.answer]
    · obtain ⟨hw, he⟩ := hh.written rfl
      obtain rfl | ⟨db, hi, rfl⟩ := statement_commit h
      · exact ⟨_, setPhase_self, by simp [TxPhase.answer]⟩
      · refine ⟨_, setPhase_self, fun result hres => .inr ?_⟩
        obtain rfl : some job = result := Option.some.inj hres
        refine ⟨?_, event.id, commit_of_install hi hw he⟩
        rw [run_of_install hi hw]
  | rollback =>
    obtain rfl := Option.some.inj h
    exact ⟨_, setPhase_self, by simp [TxPhase.answer]⟩
  | done result => simp [statement] at h
  | crashed => simp [statement] at h

theorem step_crash (hx : s.txs x = some tx) (ho : tx.phase.over = false)
    (h : s.step (.crash x) = some t) : (s.setPhase x tx .crashed).release x = t := by
  unfold step at h
  simpa only [hx, ho, Bool.false_eq_true, if_false, Option.some.injEq] using h

/-- What every call in the run is to return, it has done. -/
def Answered (as : List ServerAction) (s : Server) : Prop := ∀ x tx result, s.txs x = some tx →
  tx.phase.answer = some result → Point as x tx.call result

theorem Answered.step {as : List ServerAction} {a : ServerAction}
    (hI : ∀ y tx, s.txs y = some tx → Held s.db s.locks y tx) (hA : Answered as s)
    (hs : exec step init as = some s) (h : s.step a = some t) : Answered (as ++ [a]) t := by
  -- the calls that the step is not of
  have hkept : ∀ {x result tx}, s.txs x = some tx → tx.phase.answer = some result →
      Point (as ++ [a]) x tx.call result := fun hx hr => (hA _ _ _ hx hr).append a
  intro y tx' result hy hres
  cases step_cases h with
  | @called x c hx =>
    by_cases hyx : y = x
    · subst hyx
      simp only [Function.update_self, Option.some.injEq] at hy
      subst hy
      simp [TxPhase.answer] at hres
    · simp only [Function.update_of_ne hyx] at hy
      exact hkept hy hres
  | @statement x tx ok uuid _ hx ho ht =>
    by_cases hyx : y = x
    swap
    · rw [ht.txs_of_ne hyx] at hy
      exact hkept hy hres
    subst hyx
    have hst : s.statement y tx ok uuid = some t := by
      obtain ⟨tx₁, hx₁, hst⟩ := Option.bind_eq_some_iff.1 h
      obtain rfl := Option.some.inj (hx.symm.trans hx₁)
      exact hst
    obtain ⟨phase, hty, hans⟩ := statement_answer (hI y tx hx) hst
    obtain rfl := Option.some.inj (hty.symm.trans hy)
    rcases hans result hres with hold | hnew
    · exact (hA y tx result hx hold).append _
    · exact ⟨as, ok, uuid, [], s, t, rfl, hs, h, hnew⟩
  | @crash x tx _ hx ho ht =>
    by_cases hyx : y = x
    swap
    · rw [ht.txs_of_ne hyx] at hy
      exact hkept hy hres
    subst hyx
    have hcr : t.txs y = some { tx with phase := .crashed } := by
      obtain rfl := step_crash hx ho h
      exact setPhase_self
    obtain rfl := Option.some.inj (hcr.symm.trans hy)
    simp [TxPhase.answer] at hres
  | clock => exact hkept hy hres
  | worker => exact hkept hy hres
  | dispatch => exact hkept hy hres

/-! ## The order of the commits -/

theorem committed_of_statement {ok : Bool} {uuid : Uuid} (hx : s.txs x = some tx)
    (hh : Held s.db s.locks x tx) (ho : tx.phase.over = false) (ht : TxStep s x tx t) :
    s.committed (.statement x ok uuid) t = [] ∧ t.db = s.db ∧ t.returnsRow x = false
      ∨ ∃ c, s.committed (.statement x ok uuid) t = [(some x, c)] ∧ s.db.step c = some t.db
        ∧ t.returnsRow x = true := by
  rcases ht.tables with ⟨hdb, phase, htx, hp⟩ | ⟨job, event, hp, hi, htx⟩
  · have hr : t.returnsRow x = false := by
      unfold returnsRow
      rw [htx]
      split
      · rename_i heq
        obtain ⟨-, rfl⟩ := Tx.mk.inj (Option.some.inj heq)
        exact absurd rfl (hp _)
      · rfl
    refine .inl ⟨?_, hdb, hr⟩
    simp only [committed, hr, Bool.false_eq_true, if_false]
    split <;> rfl
  · obtain ⟨hw, he⟩ := hh.written hp
    obtain ⟨call, phase₀⟩ := tx
    obtain rfl : phase₀ = .commit (some (job, event)) := hp
    have hr : t.returnsRow x = true := by simp only [returnsRow, htx]
    refine .inr ⟨.commit ⟨job.id, job.updatedAt, call.op⟩ event.id, ?_, commit_of_install hi hw he,
      hr⟩
    simp only [committed, hx, hr, if_true]

theorem returnsRow_congr (h : t.txs x = s.txs x) : t.returnsRow x = s.returnsRow x := by
  unfold returnsRow
  rw [h]

theorem returnsRow_call {c : ApiCall} (hyx : y ≠ x) :
    returnsRow { s with txs := Function.update s.txs x (some { call := c, phase := .connect }) } y
      = s.returnsRow y :=
  returnsRow_congr (Function.update_of_ne hyx _ _)

theorem not_returnsRow (hx : s.txs x = some tx) (ho : tx.phase.over = false) :
    s.returnsRow x = false := by
  unfold returnsRow
  rw [hx]
  split
  · rename_i heq
    obtain rfl := Option.some.inj heq
    simp [TxPhase.over] at ho
  · rfl

theorem committed_sound {a : ServerAction}
    (hI : ∀ y tx, s.txs y = some tx → Held s.db s.locks y tx) (h : s.step a = some t) :
    exec Db.step s.db ((s.committed a t).map Prod.snd) = some t.db := by
  cases step_cases h with
  | clock => rfl
  | called => rfl
  | statement hx ho ht =>
    rcases committed_of_statement hx (hI _ _ hx) ho ht with ⟨hn, hdb, -⟩ | ⟨c, hc, hdb, -⟩
    · rw [hn, hdb]
      rfl
    · rw [hc]
      exact exec_singleton.2 hdb
  | @crash x tx _ hx ho ht =>
    obtain rfl := step_crash hx ho h
    rfl
  | worker _ hc => exact exec_singleton.2 hc
  | dispatch hd => exact exec_singleton.2 hd

/-- A call is in the order of the commits where it has returned a row, and once. -/
def Once (l : List (Option ℕ × DbAction)) (s : Server) : Prop :=
  ∀ x, l.countP (fun c => c.1 = some x) = if s.returnsRow x then 1 else 0

theorem Once.step {l : List (Option ℕ × DbAction)} {a : ServerAction}
    (hI : ∀ y tx, s.txs y = some tx → Held s.db s.locks y tx) (hO : Once l s)
    (h : s.step a = some t) : Once (l ++ s.committed a t) t := by
  intro y
  rw [List.countP_append, hO y]
  cases step_cases h with
  | clock => rfl
  | @called x c hx =>
    by_cases hyx : y = x
    · subst hyx
      simp [committed, returnsRow, hx]
    · rw [returnsRow_call hyx]
      rfl
  | @statement x tx ok uuid _ hx ho ht =>
    by_cases hyx : y = x
    · subst hyx
      rw [not_returnsRow hx ho]
      rcases committed_of_statement hx (hI _ _ hx) ho ht with ⟨hn, -, hr⟩ | ⟨c, hc, -, hr⟩
      · rw [hn, hr]
        rfl
      · rw [hc, hr]
        simp
    · rw [returnsRow_congr (ht.txs_of_ne hyx)]
      rcases committed_of_statement hx (hI _ _ hx) ho ht with ⟨hn, -⟩ | ⟨c, hc, -⟩
      · rw [hn]
        rfl
      · rw [hc]
        simp [Ne.symm hyx]
  | @crash x tx _ hx ho ht =>
    by_cases hyx : y = x
    · subst hyx
      have hcr : t.returnsRow y = false := by
        obtain rfl := step_crash hx ho h
        simp [returnsRow, release, setPhase]
      rw [not_returnsRow hx ho, hcr]
      rfl
    · rw [returnsRow_congr (ht.txs_of_ne hyx)]
      rfl
  | worker => rfl
  | dispatch => rfl

/-- Concurrent calls of the API, with the worker's and the dispatcher's statements among theirs,
come to what they would if each were made at once, at a moment while it runs. -/
theorem calls_serialized {as : List ServerAction} (h : exec step init as = some s) :
    Serialized as s := by
  have hinit : ∀ y tx, init.txs y = some tx → Held init.db init.locks y tx := fun _ _ hx => by
    simp [init] at hx
  have hheld : ∀ {as s}, exec step init as = some s →
      ∀ y tx, s.txs y = some tx → Held s.db s.locks y tx := fun h =>
    exec_inv (fun _ _ _ => held_step) hinit h
  refine ⟨?_, ?_, fun x tx result hx hp => ?_⟩
  · rw [map_trace]
    exact exec_trace_refines (·.db) (fun _ _ _ => held_step) (fun _ _ _ => committed_sound) hinit h
  · have hstep : ∀ l s a t, ((∀ y tx, s.txs y = some tx → Held s.db s.locks y tx) ∧ Once l s) →
        step s a = some t →
        (∀ y tx, t.txs y = some tx → Held t.db t.locks y tx) ∧ Once (l ++ s.committed a t) t :=
      fun l s a t hI h => ⟨held_step hI.1 h, hI.2.step hI.1 h⟩
    exact (exec_trace_inv (I := fun l s => (∀ y tx, s.txs y = some tx → Held s.db s.locks y tx)
      ∧ Once l s) hstep ⟨hinit, fun x => rfl⟩ h).2
  · have hA : Answered as s := exec_run_inv (I := Answered) (fun _ _ _ hx => by simp [init] at hx)
      (fun _ _ _ _ hs hA h => hA.step (hheld hs) hs h) h
    exact hA x tx result hx (by rw [hp]; rfl)

theorem calls_serialized_racingReplays : ∃ s, exec step init racingReplays = some s
    ∧ (trace step committed init racingReplays).map Prod.fst = [some 0, none, none, none, some 2]
    ∧ (s.txs 3).map (·.phase) = some (.done (.returned none))
    ∧ Serialized racingReplays s :=
  ⟨_, rfl, by decide, by decide, calls_serialized rfl⟩

/-! ## Locks -/

/-- A locked row is in `DEAD_LETTERED`, and its lock a replay's that is under way and past its
`UPDATE`. -/
def Locked (s : Server) : Prop :=
  ∀ k x, s.locks k = some x →
    (∃ tx, s.txs x = some tx ∧ tx.phase.holds = true ∧ tx.call = .claimReplay k)
      ∧ ∃ i, s.db.jobs.get k = some i ∧ i.status = .deadLettered

/-- What a statement makes of its call and of the locks: it takes none but that of its replay's row,
and lets go of those it has when it ends. -/
structure Moves (s : Server) (x : ℕ) (tx : Tx) (t : Server) (phase : TxPhase) : Prop where
  txs : t.txs = Function.update s.txs x (some { tx with phase })
  ahead : phase.ahead < tx.phase.ahead
  tables : phase.holds = true → t.db = s.db
  others : ∀ k y, t.locks k = some y → y ≠ x → s.locks k = some y
  own : ∀ k, t.locks k = some x → phase.holds = true
    ∧ (s.locks k = some x ∨ tx.phase.ahead = 4 ∧ tx.call = .claimReplay k
      ∧ ∃ i, s.db.jobs.get k = some i ∧ i.status = .deadLettered)

theorem moves_setPhase {phase : TxPhase} (ha : phase.ahead < tx.phase.ahead)
    (hh : ∀ k, s.locks k = some x → phase.holds = true) :
    Moves s x tx (s.setPhase x tx phase) phase :=
  ⟨rfl, ha, fun _ => rfl, fun _ _ hk _ => hk, fun k hk => ⟨hh k hk, .inl hk⟩⟩

theorem moves_release (db : Db) {phase : TxPhase} (ha : phase.ahead < tx.phase.ahead)
    (hp : phase.holds = true → db = s.db) :
    Moves s x tx (release { s.setPhase x tx phase with db } x) phase := by
  refine ⟨rfl, ha, hp, fun k y hk _ => ?_, fun k hk => ?_⟩
  · simp only [release] at hk
    split_ifs at hk
    exact hk
  · simp only [release] at hk
    split_ifs at hk with h
    exact absurd hk h

theorem Locked.not_holder (hL : Locked s) (hx : s.txs x = some tx) (hh : tx.phase.holds = false)
    (k : Uuid) : s.locks k ≠ some x := by
  intro hk
  obtain ⟨⟨tx', hx', hh', -⟩, -⟩ := hL k x hk
  rw [Option.some.inj (hx.symm.trans hx'), hh'] at hh
  exact absurd hh (by simp)

theorem statement_moves (hL : Locked s) (hx : s.txs x = some tx) {ok : Bool} {uuid : Uuid}
    (h : s.statement x tx ok uuid = some t) : ∃ phase, Moves s x tx t phase := by
  obtain ⟨call, phase⟩ := tx
  have hno : phase.holds = false → ∀ {p : TxPhase} k, s.locks k = some x → p.holds = true :=
    fun hp _ k hk => absurd hk (hL.not_holder hx hp k)
  cases phase with
  | connect =>
    obtain rfl := Option.some.inj h
    refine ⟨_, moves_setPhase ?_ (hno rfl)⟩
    cases ok <;> simp [TxPhase.ahead]
  | begin =>
    obtain rfl := Option.some.inj h
    refine ⟨_, moves_setPhase ?_ (hno rfl)⟩
    cases ok <;> simp [TxPhase.ahead]
  | change begunAt =>
    cases ok
    · obtain rfl := Option.some.inj h
      exact ⟨_, moves_setPhase (by simp [TxPhase.ahead]) fun _ _ => rfl⟩
    · replace h : s.change x ⟨call, .change begunAt⟩ begunAt uuid = some t := h
      unfold change at h
      cases call with
      | createJob type payload =>
        rcases hg : s.db.jobs.get uuid with _ | i <;> simp only [hg, Option.some.injEq] at h <;>
          subst h <;> exact ⟨_, moves_setPhase (by simp [TxPhase.ahead]) fun _ _ => rfl⟩
      | claimReplay id =>
        rcases hr : ((claimReplayUpdate begunAt).run s.db.jobs id).2 with _ | job <;>
          rcases hl : s.locks id with _ | y <;>
          simp only [hr, hl, Option.some.injEq, reduceCtorEq] at h <;> subst h
        · exact ⟨_, moves_setPhase (by simp [TxPhase.ahead]) (hno rfl)⟩
        · exact ⟨_, moves_setPhase (by simp [TxPhase.ahead]) (hno rfl)⟩
        · obtain ⟨i, hi, hd, -⟩ := (JobUpdate.run_snd_eq_some _ _ _).1 hr
          refine ⟨.insertEvent begunAt job, rfl, by simp [TxPhase.ahead], fun _ => rfl,
            fun k y hk hy => ?_, fun k hk => ⟨rfl, ?_⟩⟩
          · by_cases hki : k = id
            · subst hki
              simp only [Function.update_self, Option.some.injEq] at hk
              exact absurd hk.symm hy
            · simpa only [Function.update_of_ne hki] using hk
          · by_cases hki : k = id
            · exact .inr ⟨rfl, by rw [hki], i, hki ▸ hi, by simpa [claimReplayUpdate] using hd⟩
            · exact .inl (by simpa only [Function.update_of_ne hki] using hk)
  | insertEvent begunAt job =>
    obtain rfl := Option.some.inj h
    refine ⟨_, moves_setPhase ?_ fun _ _ => ?_⟩
    · split_ifs <;> simp [TxPhase.ahead]
    · split_ifs <;> rfl
  | commit written =>
    rcases written with _ | ⟨job, event⟩
    · obtain rfl := Option.some.inj h
      refine ⟨_, moves_release s.db ?_ fun _ => rfl⟩
      cases ok <;> simp [TxPhase.ahead]
    · obtain rfl | ⟨db, hi, rfl⟩ := statement_commit h
      · exact ⟨_, moves_setPhase (by simp [TxPhase.ahead]) fun _ _ => rfl⟩
      · exact ⟨_, moves_release _ (by simp [TxPhase.ahead]) (by simp [TxPhase.holds])⟩
  | rollback =>
    obtain rfl := Option.some.inj h
    exact ⟨_, moves_release s.db (by simp [TxPhase.ahead]) fun _ => rfl⟩
  | done result => simp [statement] at h
  | crashed => simp [statement] at h

/-- A statement waits only where it would change a row that another call has locked. -/
theorem statement_waits (ho : tx.phase.over = false) {ok : Bool} {uuid : Uuid}
    (h : s.statement x tx ok uuid = none) :
    tx.phase.ahead = 4 ∧ ∃ k y, tx.call = .claimReplay k ∧ s.locks k = some y := by
  obtain ⟨call, phase⟩ := tx
  cases phase with
  | change begunAt =>
    cases ok
    · simp [statement] at h
    · replace h : s.change x ⟨call, .change begunAt⟩ begunAt uuid = none := h
      unfold change at h
      cases call with
      | createJob type payload =>
        rcases hg : s.db.jobs.get uuid with _ | i <;> simp [hg] at h
      | claimReplay id =>
        rcases hr : ((claimReplayUpdate begunAt).run s.db.jobs id).2 with _ | job <;>
          rcases hl : s.locks id with _ | y <;> simp [hr, hl] at h
        exact ⟨rfl, id, y, rfl, hl⟩
  | commit written =>
    rcases written with _ | ⟨job, event⟩
    · simp [statement] at h
    · rcases hi : install s.db call job event with _ | db
      · simp [statement, hi] at h
      · cases ok <;> simp [statement, hi] at h
  | done result => simp [TxPhase.over] at ho
  | crashed => simp [TxPhase.over] at ho
  | _ => simp [statement] at h

/-- What a run keeps: a transaction may write what it has written, and no lock is without its
holder. -/
structure Sound (s : Server) : Prop where
  held : ∀ y tx, s.txs y = some tx → Held s.db s.locks y tx
  locked : Locked s

theorem statement_of_step {ok : Bool} {uuid : Uuid} (hx : s.txs x = some tx)
    (h : s.step (.statement x ok uuid) = some t) : s.statement x tx ok uuid = some t := by
  obtain ⟨tx', hx', hst⟩ := Option.bind_eq_some_iff.1 h
  rwa [Option.some.inj (hx.symm.trans hx')]

theorem Sound.locked_step {a : ServerAction} (hS : s.Sound) (h : s.step a = some t) :
    Locked t := by
  intro k y hk
  cases step_cases h with
  | clock => exact hS.locked k y hk
  | @called x c hx =>
    obtain ⟨⟨tx, hy, hh, hc⟩, hi⟩ := hS.locked k y hk
    have hyx : y ≠ x := fun hyx => by
      rw [hyx, hx] at hy
      exact absurd hy (by simp)
    exact ⟨⟨tx, (Function.update_of_ne hyx _ _).trans hy, hh, hc⟩, hi⟩
  | @statement x tx ok uuid _ hx ho ht =>
    obtain ⟨phase, hm⟩ := statement_moves hS.locked hx (statement_of_step hx h)
    by_cases hyx : y = x
    · subst hyx
      obtain ⟨hh, hown⟩ := hm.own k hk
      rw [hm.txs, Function.update_self, hm.tables hh]
      rcases hown with hold | ⟨-, hc, hi⟩
      · obtain ⟨⟨tx', hx', -, hc⟩, hi⟩ := hS.locked k y hold
        obtain rfl := Option.some.inj (hx.symm.trans hx')
        exact ⟨⟨_, rfl, hh, hc⟩, hi⟩
      · exact ⟨⟨_, rfl, hh, hc⟩, hi⟩
    · have hold := hm.others k y hk hyx
      obtain ⟨⟨tx', hy, hh, hc⟩, i, hi, hd⟩ := hS.locked k y hold
      rw [hm.txs, Function.update_of_ne hyx]
      exact ⟨⟨tx', hy, hh, hc⟩, i, ht.get_of_locked hyx (hS.held x tx hx) hold hi, hd⟩
  | @crash x tx _ hx ho ht =>
    obtain rfl := step_crash hx ho h
    simp only [release] at hk
    split_ifs at hk with hkx
    have hyx : y ≠ x := fun hyx => hkx (hyx ▸ hk)
    obtain ⟨⟨tx', hy, hh, hc⟩, hi⟩ := hS.locked k y hk
    exact ⟨⟨tx', (Function.update_of_ne hyx _ _).trans hy, hh, hc⟩, hi⟩
  | worker _ hc =>
    obtain ⟨htx, i, hi, hd⟩ := hS.locked k y hk
    exact ⟨htx, i, get_of_call hc hi hd, hd⟩
  | dispatch hd =>
    obtain ⟨outbox, -, rfl⟩ := Option.map_eq_some_iff.1 hd
    exact hS.locked k y hk

theorem Sound.step {a : ServerAction} (hS : s.Sound) (h : s.step a = some t) : t.Sound :=
  ⟨held_step hS.held h, hS.locked_step h⟩

theorem sound_init : init.Sound :=
  ⟨fun _ _ hx => by simp [init] at hx, fun _ _ hk => by simp [init] at hk⟩

/-- What a worker's statement would change is not locked. -/
theorem Sound.worker (hS : s.Sound) {c : Call} (hc : c.op.isApi = false) :
    (s.step (.worker c)).isSome = true := by
  have hfree : (c.succeeds s.db.jobs && (s.locks c.id).isSome) = false := by
    by_contra hlk
    rw [Bool.not_eq_false, Bool.and_eq_true, Call.succeeds] at hlk
    obtain ⟨j, hj⟩ := Option.isSome_iff_exists.1 hlk.1
    obtain ⟨x, hx⟩ := Option.isSome_iff_exists.1 hlk.2
    obtain ⟨-, i, hi, hd⟩ := hS.locked c.id x hx
    have hw := (Call.writes hj).1
    rw [hi] at hw
    rw [hw.op_of_deadLettered hd] at hc
    exact absurd hc (by simp [JobOp.isApi])
  simp [Server.step, hfree, Db.step, hc]

/-! ## Each call comes to its end -/

/-- A statement is made, and succeeds if it can. -/
def Proceeds (_ : Server) (a : ServerAction) (_ : Server) : Prop :=
  ∃ x uuid, a = .statement x true uuid

/-- Call `x` is not under way. -/
def Over (x : ℕ) (s : Server) : Prop := ∀ tx ∈ s.txs x, tx.phase.ahead = 0

def ahead (x : ℕ) (s : Server) : ℕ := ((s.txs x).map fun tx => tx.phase.ahead).getD 6

theorem over_iff {phase : TxPhase} : phase.over = true ↔ phase.ahead = 0 := by
  cases phase <;> simp [TxPhase.over, TxPhase.ahead]

theorem ahead_of_holds {phase : TxPhase} (h : phase.holds = true) :
    0 < phase.ahead ∧ phase.ahead < 4 := by
  cases phase <;> simp [TxPhase.holds, TxPhase.ahead] at h ⊢

theorem Moves.over_of_ne {phase : TxPhase} (hm : Moves s x tx t phase) (hx : s.txs x = some tx)
    (hp : 0 < tx.phase.ahead) (h : Over y s) : Over y t := by
  by_cases hyx : y = x
  · subst hyx
    exact absurd (h tx hx) hp.ne'
  · intro tx' hy
    rw [hm.txs, Function.update_of_ne hyx] at hy
    exact h tx' hy

/-- A call past its `UPDATE` comes to its end, and others keep their phases and get no lock. -/
theorem can_finish (hS : s.Sound) (hx : s.txs x = some tx) (ha : tx.phase.ahead < 4) :
    ∃ t, Can step Proceeds s t ∧ t.Sound ∧ (∀ y, y ≠ x → t.txs y = s.txs y)
      ∧ (∀ k y, t.locks k = some y → s.locks k = some y) ∧ Over x t := by
  let I : Server → Prop := fun u => u.Sound ∧ (∀ y, y ≠ x → u.txs y = s.txs y)
    ∧ (∀ k y, u.locks k = some y → s.locks k = some y)
    ∧ ∃ tx, u.txs x = some tx ∧ tx.phase.ahead < 4
  have hstep : ∀ u, I u → ¬ Over x u →
      ∃ v, Can step Proceeds u v ∧ I v ∧ v.ahead x < u.ahead x := by
    rintro u ⟨hu, ho, hl, tx', hx', ha'⟩ hn
    have hover : tx'.phase.over = false := by
      rw [← Bool.not_eq_true, over_iff]
      exact fun h0 => hn fun tx hx => Option.some.inj (hx'.symm.trans hx) ▸ h0
    rcases hst : u.statement x tx' true 0 with _ | v
    · have := (statement_waits hover hst).1
      omega
    · have hv : u.step (.statement x true 0) = some v := by
        simp only [step, hx', Option.bind_some, hst]
      obtain ⟨phase, hm⟩ := statement_moves hu.locked hx' hst
      have htx : v.txs x = some { tx' with phase } := by rw [hm.txs, Function.update_self]
      refine ⟨v, can_step hv ⟨x, 0, rfl⟩, ⟨hu.step hv, fun y hy => ?_, fun k y hk => ?_, _, htx,
        hm.ahead.trans ha'⟩, ?_⟩
      · rw [hm.txs, Function.update_of_ne hy, ho y hy]
      · by_cases hyx : y = x
        · subst hyx
          rcases (hm.own k hk).2 with hold | ⟨h4, -⟩
          · exact hl k y hold
          · omega
        · exact hl k y (hm.others k y hk hyx)
      · simpa only [ahead, htx, hx', Option.map_some, Option.getD_some] using hm.ahead
  obtain ⟨t, hst, ⟨ht, ho, hl, -⟩, hd⟩ := can_of_rank (ahead x) hstep
    ⟨hS, fun _ _ => rfl, fun _ _ => id, tx, hx, ha⟩
  exact ⟨t, hst, ht, ho, hl, hd⟩

/-- A call under way goes on, once the one that it waits for has ended. -/
theorem can_advance (hS : s.Sound) (hx : s.txs x = some tx) (hp : 0 < tx.phase.ahead) :
    ∃ t, Can step Proceeds s t ∧ (t.Sound ∧ (∀ y, Over y s → Over y t) ∧ (t.txs x).isSome = true)
      ∧ t.ahead x < s.ahead x := by
  have hover : tx.phase.over = false := by
    rw [← Bool.not_eq_true, over_iff]
    exact hp.ne'
  -- where the statement does not wait
  have hgo : ∀ u v : Server, Can step Proceeds s u → u.Sound → (∀ y, Over y s → Over y u) →
      u.txs x = some tx → u.statement x tx true 0 = some v → ∃ t, Can step Proceeds s t
        ∧ (t.Sound ∧ (∀ y, Over y s → Over y t) ∧ (t.txs x).isSome = true)
        ∧ t.ahead x < s.ahead x := by
    intro u v hsu hu ho hxu hst
    have hv : u.step (.statement x true 0) = some v := by
      simp only [step, hxu, Option.bind_some, hst]
    obtain ⟨phase, hm⟩ := statement_moves hu.locked hxu hst
    have htx : v.txs x = some { tx with phase } := by rw [hm.txs, Function.update_self]
    refine ⟨v, hsu.trans (can_step hv ⟨x, 0, rfl⟩), ⟨hu.step hv, fun y hy =>
      hm.over_of_ne hxu hp (ho y hy), by rw [htx]; rfl⟩, ?_⟩
    simpa only [ahead, htx, hx, Option.map_some, Option.getD_some] using hm.ahead
  rcases hst : s.statement x tx true 0 with _ | v
  · obtain ⟨h4, k, y, hc, hk⟩ := statement_waits hover hst
    obtain ⟨⟨tx', hy, hh, -⟩, -⟩ := hS.locked k y hk
    obtain ⟨hpos, hlt⟩ := ahead_of_holds hh
    have hyx : x ≠ y := fun hxy => by
      rw [← hxy, hx] at hy
      rw [Option.some.inj hy] at h4
      omega
    obtain ⟨u, hsu, hu, hsame, hlocks, hend⟩ := can_finish hS hy hlt
    have hfree : u.locks k = none := by
      rcases huk : u.locks k with _ | z
      · rfl
      · obtain rfl := Option.some.inj ((hlocks k z huk).symm.trans hk)
        obtain ⟨⟨tx₂, hz, hh₂, -⟩, -⟩ := hu.locked k z huk
        exact absurd (hend tx₂ hz) (ahead_of_holds hh₂).1.ne'
    have hxu : u.txs x = some tx := (hsame x hyx).trans hx
    rcases hst' : u.statement x tx true 0 with _ | v
    · obtain ⟨-, k', z, hc', hk'⟩ := statement_waits hover hst'
      obtain rfl := ApiCall.claimReplay.inj (hc.symm.trans hc')
      rw [hfree] at hk'
      exact absurd hk' (by simp)
    · refine hgo u v hsu hu (fun z hz => ?_) hxu hst'
      by_cases hzy : z = y
      · exact hzy ▸ hend
      · exact fun tx₂ h₂ => hz tx₂ (hsame z hzy ▸ h₂)
  · exact hgo s v (.refl s) hS (fun _ => id) hx hst

theorem can_end (hS : s.Sound) (x : ℕ) :
    ∃ t, Can step Proceeds s t ∧ t.Sound ∧ Over x t ∧ ∀ y, Over y s → Over y t := by
  rcases hx : s.txs x with _ | tx
  · exact ⟨s, .refl s, hS, fun tx h => by rw [hx] at h; simp at h, fun _ => id⟩
  let I : Server → Prop := fun u =>
    u.Sound ∧ (∀ y, Over y s → Over y u) ∧ (u.txs x).isSome = true
  have hstep : ∀ u, I u → ¬ Over x u →
      ∃ v, Can step Proceeds u v ∧ I v ∧ v.ahead x < u.ahead x := by
    rintro u ⟨hu, ho, hsome⟩ hn
    obtain ⟨tx', hx'⟩ := Option.isSome_iff_exists.1 hsome
    have hp : 0 < tx'.phase.ahead := Nat.pos_of_ne_zero fun h0 =>
      hn fun tx hx => Option.some.inj (hx'.symm.trans hx) ▸ h0
    obtain ⟨v, huv, ⟨hv, hov, hsv⟩, hlt⟩ := can_advance hu hx' hp
    exact ⟨v, huv, ⟨hv, fun y hy => hov y (ho y hy), hsv⟩, hlt⟩
  obtain ⟨t, hst, ⟨ht, ho, -⟩, hd⟩ := can_of_rank (ahead x) hstep ⟨hS, fun _ => id, by rw [hx]; rfl⟩
  exact ⟨t, hst, ht, hd, ho⟩

def isStatement (x : ℕ) : ServerAction → Bool
  | .statement y _ _ => x = y
  | _ => false

theorem ahead_of_step {a : ServerAction} (hS : s.Sound) (h : s.step a = some t) (x : ℕ) :
    t.ahead x + (if isStatement x a = true then 1 else 0) ≤ s.ahead x := by
  have hsame : ∀ {u : Server}, u.txs x = s.txs x → u.ahead x + 0 ≤ s.ahead x := fun h => by
    rw [ahead, ahead, h, Nat.add_zero]
  cases step_cases h with
  | clock => exact hsame rfl
  | @called y c hy =>
    by_cases hxy : x = y
    · subst hxy
      simp [ahead, hy, TxPhase.ahead, isStatement]
    · exact hsame (Function.update_of_ne hxy _ _)
  | @statement y tx ok uuid _ hy ho ht =>
    obtain ⟨phase, hm⟩ := statement_moves hS.locked hy (statement_of_step hy h)
    by_cases hxy : x = y
    · subst hxy
      simpa [ahead, hm.txs, hy, isStatement, Nat.succ_le_iff] using hm.ahead
    · rw [show isStatement x (.statement y ok uuid) = false from decide_eq_false hxy]
      exact hsame (by rw [hm.txs, Function.update_of_ne hxy])
  | @crash y tx _ hy ho ht =>
    obtain rfl := step_crash hy ho h
    by_cases hxy : x = y
    · subst hxy
      simp [ahead, release, setPhase, TxPhase.ahead, isStatement]
    · exact hsame (Function.update_of_ne hxy _ _)
  | worker => exact hsame rfl
  | dispatch => exact hsame rfl

theorem few_of_step {a : ServerAction} (hF : ∃ n, ∀ y, n ≤ y → s.txs y = none)
    (h : s.step a = some t) : ∃ n, ∀ y, n ≤ y → t.txs y = none := by
  obtain ⟨n, hn⟩ := hF
  have hlt : ∀ {x tx}, s.txs x = some tx → ∀ y, n ≤ y → y ≠ x := fun hx y hy hyx => by
    rw [← hyx, hn y hy] at hx
    exact absurd hx (by simp)
  cases step_cases h with
  | @called x c hx =>
    refine ⟨max n (x + 1), fun y hy => ?_⟩
    have hyx : y ≠ x := by omega
    exact (Function.update_of_ne hyx _ _).trans (hn y (by omega))
  | statement hx _ ht => exact ⟨n, fun y hy => (ht.txs_of_ne (hlt hx y hy)).trans (hn y hy)⟩
  | crash hx _ ht => exact ⟨n, fun y hy => (ht.txs_of_ne (hlt hx y hy)).trans (hn y hy)⟩
  | _ => exact ⟨n, hn⟩

/-- A lock is in nobody's way for longer than its holder takes, which waits for none. -/
structure Unhindered (as : List ServerAction) (s : Server) : Prop where
  holder : ∀ k x, s.locks k = some x → ∃ tx, s.txs x = some tx ∧ tx.call = .claimReplay k
    ∧ ∀ ok uuid, (s.step (.statement x ok uuid)).isSome = true
  waits : ∀ x tx ok uuid, s.txs x = some tx → tx.phase.over = false →
    s.step (.statement x ok uuid) = none →
      ∃ k y, tx.call = .claimReplay k ∧ s.locks k = some y ∧ y ≠ x
  worker : ∀ c, c.op.isApi = false → (s.step (.worker c)).isSome = true
  /-- Whatever comes of its statements, a call has made no more of them. -/
  bounded : ∀ x, as.countP (isStatement x) ≤ 6
  ends : ∃ t, Can step Proceeds s t ∧ (∀ x tx, t.txs x = some tx → tx.phase.over = true)
    ∧ ∀ k, t.locks k = none

/-- In every state that concurrent calls reach, no lock is without its holder, and each call can
come to its end: none waits but a replay, for another of its job, and no worker does. -/
theorem calls_unhindered {as : List ServerAction} (h : exec step init as = some s) :
    Unhindered as s := by
  have hS : s.Sound := exec_inv (fun _ _ _ hS h => Sound.step hS h) sound_init h
  refine ⟨fun k x hk => ?_, fun x tx ok uuid hx ho hn => ?_, fun c hc => hS.worker hc,
    fun x => ?_, ?_⟩
  · obtain ⟨⟨tx, hx, hh, hc⟩, -⟩ := hS.locked k x hk
    refine ⟨tx, hx, hc, fun ok uuid => ?_⟩
    obtain ⟨hp, hlt⟩ := ahead_of_holds hh
    rcases hst : s.statement x tx ok uuid with _ | t
    · have h4 := (statement_waits (by rw [← Bool.not_eq_true, over_iff]; exact hp.ne') hst).1
      omega
    · simp only [step, hx, Option.bind_some, hst, Option.isSome_some]
  · simp only [step, hx, Option.bind_some] at hn
    obtain ⟨h4, k, y, hc, hk⟩ := statement_waits ho hn
    refine ⟨k, y, hc, hk, fun hyx => ?_⟩
    obtain ⟨⟨tx', hy, hh, -⟩, -⟩ := hS.locked k y hk
    rw [hyx, hx] at hy
    have := (ahead_of_holds hh).2
    rw [← Option.some.inj hy, h4] at this
    omega
  · have hle : as.countP (isStatement x) + s.ahead x ≤ init.ahead x := by
      have hrun := exec_run_inv (I := fun bs u => u.Sound
        ∧ bs.countP (isStatement x) + u.ahead x ≤ init.ahead x) ⟨sound_init, by simp⟩
        (fun bs u a v _ hI hv => ⟨hI.1.step hv, by
          have := ahead_of_step hI.1 hv x
          rw [List.countP_append, List.countP_singleton]
          omega⟩) h
      exact hrun.2
    have h6 : init.ahead x = 6 := rfl
    omega
  · obtain ⟨n, hn⟩ : ∃ n, ∀ y, n ≤ y → s.txs y = none :=
      exec_inv (fun _ _ _ hF h => few_of_step hF h) ⟨0, fun _ _ => rfl⟩ h
    obtain ⟨t, hst, ht, hlt, hk⟩ := can_each (P := Over) (I := Sound)
      (fun x s hs => can_end hs x) n hS
    have hover : ∀ x, Over x t := fun x => by
      by_cases hx : x < n
      · exact hlt x hx
      · exact hk x fun tx htx => by rw [hn x (not_lt.1 hx)] at htx; simp at htx
    refine ⟨t, hst, fun x tx hx => over_iff.2 (hover x tx hx), fun k => ?_⟩
    rcases hlk : t.locks k with _ | x
    · rfl
    · obtain ⟨⟨tx, hx, hh, -⟩, -⟩ := ht.locked k x hlk
      exact absurd (hover x tx hx) (ahead_of_holds hh).1.ne'

/-- A replay waits for another, which has its job's row locked. -/
theorem calls_unhindered_racingReplays : ∃ s, exec step init (racingReplays.take 23) = some s
    ∧ s.locks 5 = some 2 ∧ s.step (.statement 3 true 0) = none
    ∧ Unhindered (racingReplays.take 23) s :=
  ⟨_, rfl, rfl, rfl, calls_unhindered rfl⟩

end Server

end DeadLetter
