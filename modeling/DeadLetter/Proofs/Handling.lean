import DeadLetter.Handling
import DeadLetter.Proofs.Delivery

/-!
# The bodies that poison the worker

With the database reachable and the channel open, a step of the handler is a step of the delivery
that neither closes the channel nor throws what cannot be read. So the handler rejects for JSON's
`null` only; and it requeues a message that names no job only for an error that is not `22P02`: the
one that PostgreSQL gives for a NUL character, or what node-postgres throws where it cannot send the
`jobId`.
-/

namespace DeadLetter

open Transition

namespace Handling

variable {pg : Pg}

theorem processed_readable (job : Job) :
    (DeliveryAction.processJob (processed job)).unreadable = false := by
  unfold processed
  split <;> rfl

theorem reply_spec {s : Handling} {a : HandlingAction} {b : DeliveryAction} {jobs : Jobs}
    (h : s.reply pg a = some (b, jobs)) : b ≠ .channelCloses ∧ b.unreadable = false := by
  cases a <;> simp only [reply, Option.some.injEq, Prod.mk.injEq, reduceCtorEq] at h
  case processJob =>
    split at h
    · obtain ⟨rfl, -⟩ := Prod.mk.inj (Option.some.inj h)
      exact ⟨by simp, processed_readable _⟩
    · cases h
  case record now =>
    split at h
    · obtain ⟨rfl, -⟩ := Prod.mk.inj (Option.some.inj h)
      exact ⟨by simp, rfl⟩
    · cases h
  all_goals
    obtain ⟨rfl, -⟩ := h
    exact ⟨by simp, rfl⟩

theorem step_eq {s : Handling} {a : HandlingAction} (ha : a.own = true) :
    s.step pg a = (s.reply pg a).bind fun (b, jobs) =>
      (s.delivery.step b).map fun delivery => { delivery, jobs } := by
  cases a <;> first | rfl | cases ha

/-- A step of the handler's own is a step of the delivery. -/
theorem step_own {s t : Handling} {a : HandlingAction} (h : s.step pg a = some t)
    (ha : a.own = true) : ∃ b, s.reply pg a = some (b, t.jobs)
      ∧ s.delivery.step b = some t.delivery ∧ s.shown pg a t = s.delivery.shown b t.delivery := by
  rw [step_eq ha] at h
  obtain ⟨⟨b, jobs⟩, hb, hmap⟩ := Option.bind_eq_some_iff.1 h
  obtain ⟨delivery, hd, rfl⟩ := Option.map_eq_some_iff.1 hmap
  exact ⟨b, hb, hd, by rw [shown, hb]⟩

theorem step_others {s t : Handling} {a : HandlingAction} (h : s.step pg a = some t)
    (ha : a.own = false) : t.delivery = s.delivery ∧ s.shown pg a t = [] := by
  cases a with
  | others jobs =>
    obtain rfl := Option.some.inj h
    exact ⟨rfl, rfl⟩
  | _ => cases ha

/-! ## Any body -/

theorem rank_le {s t : Handling} {a : HandlingAction} (h : s.step pg a = some t) :
    t.delivery.rank + (if a.own = true then 1 else 0) ≤ s.delivery.rank := by
  rcases ha : a.own
  · rw [(step_others h ha).1]
    simp
  · obtain ⟨b, -, hb, -⟩ := step_own h ha
    have := Delivery.rank_lt hb
    simp only [if_true]
    omega

theorem step_of_reply {s : Handling} {a : HandlingAction} {b : DeliveryAction} {jobs : Jobs}
    (ha : a.own = true) (hb : s.reply pg a = some (b, jobs))
    (h : Delivery.awaits s.delivery.phase b = true) :
    ∃ a u, a.own = true ∧ s.step pg a = some u := by
  obtain ⟨d, hd⟩ := Delivery.step_of_awaits h
  exact ⟨a, ⟨d, jobs⟩, ha, by simp only [step_eq ha, hb, Option.bind_some, hd, Option.map_some]⟩

/-- A handler that has not ended awaits what the database, the broker or the clock will give it. -/
theorem enabled {s : Handling} (h : s.delivery.phase.ended = false) :
    ∃ a u, a.own = true ∧ s.step pg a = some u := by
  rcases hp : s.delivery.phase with _ | _ | job | outcome | _ | _ | _ | _ | _
  · exact step_of_reply (a := .claimJob 0) rfl rfl (by rw [hp]; rfl)
  · exact step_of_reply (a := .getJobById) rfl rfl (by rw [hp]; rfl)
  · have hb : s.reply pg .processJob = some (.processJob (processed job), s.jobs) := by
      simp only [reply, hp]
    exact step_of_reply rfl hb (by rw [hp]; rfl)
  · have hb : s.reply pg (.record 0)
        = some (.record (pg.mark 0 s.jobs s.delivery.jobId outcome.op).2,
          (pg.mark 0 s.jobs s.delivery.jobId outcome.op).1) := by
      simp only [reply, hp]
    exact step_of_reply rfl hb (by rw [hp]; rfl)
  · exact step_of_reply (a := .publish true) rfl rfl (by rw [hp]; rfl)
  · exact step_of_reply (a := .publish true) rfl rfl (by rw [hp]; rfl)
  · exact step_of_reply (a := .wake) rfl rfl (by rw [hp]; rfl)
  · simp [hp, DeliveryPhase.ended] at h
  · simp [hp, DeliveryPhase.ended] at h

/-- What holds of a delivery that has not been rejected, and of what it has done. -/
structure Sound (l : List DeliveryEvent) (s : Handling) : Prop where
  isOpen : s.delivery.channelOpen = true
  resolves : s.delivery.phase ≠ .rejected
  settles : l.countP (·.settles) = if s.delivery.phase.ended = true then 1 else 0

theorem Sound.step {l : List DeliveryEvent} {s t : Handling} {a : HandlingAction}
    (h : Sound l s) (hs : s.step pg a = some t) : Sound (l ++ s.shown pg a t) t := by
  rcases ha : a.own
  · obtain ⟨hd, hnil⟩ := step_others hs ha
    rw [hnil, List.append_nil]
    exact ⟨hd ▸ h.isOpen, hd ▸ h.resolves, hd ▸ h.settles⟩
  · obtain ⟨b, hb, hd, hshown⟩ := step_own hs ha
    obtain ⟨hc, hread⟩ := reply_spec hb
    rw [hshown]
    rcases Delivery.step_cases hd with ⟨hb', -⟩ | ⟨phase, ht, hm⟩
    · exact absurd hb' hc
    · have hrej : phase ≠ .rejected := fun hrej => by
        rcases hm.rejected hrej with hclosed | hunread
        · exact absurd (h.isOpen.symm.trans hclosed) (by simp)
        · exact absurd (hread.symm.trans hunread) (by simp)
      have hzero : s.delivery.phase.ended = false := by
        refine Bool.eq_false_iff.2 fun he => ?_
        rw [Delivery.step_ended he] at hd
        cases hd
      refine ⟨by rw [ht]; exact h.isOpen, by rw [ht]; exact hrej, ?_⟩
      rw [List.countP_append, h.settles, hm.settles, hzero, ht]
      rcases hp : phase <;> simp_all [DeliveryPhase.ended, Delivery.go]

/-- The phase that a step moves a delivery to, with what it has done. -/
theorem goes_to {s t : Delivery} {b : DeliveryAction} (phase : DeliveryPhase)
    (es : List DeliveryEvent) (hd : s.step b = some t)
    (hh : s.handle b = some (s.go phase, es)) : t = s.go phase ∧ s.shown b t = es := by
  rw [Delivery.step, hh] at hd
  exact ⟨(Option.some.inj hd).symm, by rw [Delivery.shown, hh]; rfl⟩

/-- The handler has claimed nothing, and has acked the message if it has done anything. -/
structure Idle (jobId : Option Json) (s : Handling) : Prop where
  jobId : s.delivery.jobId = jobId
  isOpen : s.delivery.channelOpen = true
  phase : s.delivery.phase = .claimJob ∨ s.delivery.phase = .getJobById
    ∨ s.delivery.phase = .resolved

/-- An error that is not `22P02` is for a `jobId` that is refused. -/
theorem param_refused {v : Option Json} : (∃ code, pg.param v = .error code ∧ code ≠ some "22P02")
    ↔ ∃ w, v = some w ∧ pg.Refuses w := by
  unfold Pg.param Pg.Refuses
  split
  · simp
  · simp
  · rename_i w hw
    have hw' : w ≠ .null := fun h => hw (by rw [h])
    rcases ht : pg.text w with _ | text
    · simp [hw', ht]
    · by_cases hnul : 0 ∈ text
      · simp [hw', ht, hnul]
      · rcases hid : pg.uuid text with _ | id <;> simp [ht, hnul, hid]

/-- A claim that matches no row is answered so, or with the error that has the message discarded. -/
theorem claimJob_eq (now : ℤ) {jobs : Jobs} {jobId : Option Json}
    (hsent : ∀ code, pg.param jobId = .error code → code = some "22P02")
    (hnone : ∀ id, pg.param jobId = .uuid id → jobs.get id = none) :
    pg.claimJob now jobs jobId = (jobs, .ok none)
      ∨ pg.claimJob now jobs jobId = (jobs, .error (some "22P02")) := by
  unfold Pg.claimJob
  rcases hp : pg.param jobId with _ | code | id
  · exact .inl rfl
  · obtain rfl := hsent code hp
    exact .inr rfl
  · have hrow : (DeadLetter.claimJob now jobs id).2 = none :=
      (JobUpdate.run_snd_eq_none _ _ _).2 fun j hj => by simp [hnone id hp] at hj
    have htable : (DeadLetter.claimJob now jobs id).1 = jobs := JobUpdate.run_of_none _ _ _ hrow
    simp only [hrow, htable, true_or]

theorem ack_open {d : Delivery} (h : d.channelOpen = true) (caught : Bool) :
    d.ack caught = (d.go .resolved, [.acked]) := by
  rw [Delivery.ack, if_pos h]

/-- What a step of an idle handler does, where the `jobId` is not refused and names no job. -/
theorem Idle.step {jobId : Option Json} {s t : Handling} {a : HandlingAction} (h : Idle jobId s)
    (hsent : ∀ code, pg.param jobId = .error code → code = some "22P02")
    (hnone : (∃ now, a = .claimJob now) → ∀ id, pg.param jobId = .uuid id → s.jobs.get id = none)
    (hs : s.step pg a = some t) :
    Idle jobId t ∧ (∀ e ∈ s.shown pg a t, e = .acked) ∧ (a.own = true → t.jobs = s.jobs) := by
  rcases ha : a.own
  · obtain ⟨hd, hnil⟩ := step_others hs ha
    refine ⟨⟨hd ▸ h.jobId, hd ▸ h.isOpen, hd ▸ h.phase⟩, by simp [hnil], by simp⟩
  · obtain ⟨b, hb, hd, hshown⟩ := step_own hs ha
    -- a phase the handler is moved to, with what it has done
    have hof : ∀ phase es, s.delivery.handle b = some (s.delivery.go phase, es) →
        (phase = .getJobById ∨ phase = .resolved) → (∀ e ∈ es, e = .acked) → t.jobs = s.jobs →
        Idle jobId t ∧ (∀ e ∈ s.shown pg a t, e = .acked) ∧ (true = true → t.jobs = s.jobs) := by
      intro phase es hh hphase hes hjobs
      obtain ⟨ht, hsh⟩ := goes_to phase es hd hh
      refine ⟨⟨by rw [ht]; exact h.jobId, by rw [ht]; exact h.isOpen,
        by rw [ht]; exact .inr hphase⟩, ?_, fun _ => hjobs⟩
      rwa [hshown, hsh]
    rcases h.phase with hp | hp | hp
    · cases a <;> simp only [reply, Option.some.injEq, Prod.mk.injEq, hp, reduceCtorEq] at hb <;>
        try (obtain ⟨rfl, -⟩ := hb; simp [Delivery.step, Delivery.handle, hp] at hd; done)
      case claimJob now =>
        obtain ⟨rfl, hjobs⟩ := hb
        rw [h.jobId] at hjobs hof
        rcases claimJob_eq now hsent (hnone ⟨now, rfl⟩) with heq | heq
        · rw [heq] at hjobs hof
          exact hof .getJobById [] (by simp [Delivery.handle, hp]) (.inl rfl) (by simp) hjobs.symm
        · rw [heq] at hjobs hof
          exact hof .resolved [.acked] (by
            simp [Delivery.handle, hp, isInvalidTextRepresentationError, ack_open h.isOpen])
            (.inr rfl) (by simp) hjobs.symm
    · cases a <;> simp only [reply, Option.some.injEq, Prod.mk.injEq, hp, reduceCtorEq] at hb <;>
        try (obtain ⟨rfl, -⟩ := hb; simp [Delivery.step, Delivery.handle, hp] at hd; done)
      case getJobById =>
        obtain ⟨rfl, hjobs⟩ := hb
        exact hof .resolved [.acked] (by simp [Delivery.handle, hp, ack_open h.isOpen])
          (.inr rfl) (by simp) hjobs.symm
    · rw [Delivery.step_ended (by rw [hp]; rfl)] at hd
      cases hd

/-! ## Poison -/

theorem code_of_not_poison {body : List UInt8} (h : ¬ Poison pg body) (code : Option String)
    (hcode : pg.param (Delivery.receive body).1.jobId = .error code) : code = some "22P02" := by
  by_contra hne
  obtain ⟨v, hv, hrefuses⟩ := param_refused.1 ⟨code, hcode, hne⟩
  rcases Delivery.receive_cases body with ⟨-, hr⟩ | ⟨-, hr⟩ | ⟨content, hp, -, hr⟩ <;>
    rw [hr] at hv
  · cases hv
  · cases hv
  · exact h (.inr ⟨content, v, hp, hv, hrefuses⟩)

theorem get_eq_none {body : List UInt8} {jobs : Jobs} (h : ¬ Names pg body jobs) (id : Uuid)
    (hid : pg.param (Delivery.receive body).1.jobId = .uuid id) : jobs.get id = none := by
  rcases hj : jobs.get id with _ | job
  · rfl
  · rcases Delivery.receive_cases body with ⟨-, hr⟩ | ⟨-, hr⟩ | ⟨content, hp, -, hr⟩ <;>
      rw [hr] at hid
    · cases hid
    · cases hid
    · exact absurd ⟨content, id, job, hp, hid, hj⟩ h

theorem receive_sound {body : List UInt8} (h : ¬ Poison pg body) (jobs : Jobs) :
    Sound (Delivery.receive body).2 (start body jobs) := by
  unfold start
  rcases Delivery.receive_cases body with ⟨-, hr⟩ | ⟨hp, -⟩ | ⟨content, hp, -, hr⟩
  · rw [hr]
    exact ⟨rfl, by simp, rfl⟩
  · exact absurd (.inl hp) h
  · rw [hr]
    exact ⟨rfl, by simp, rfl⟩

theorem receive_idle {body : List UInt8} (h : ¬ Poison pg body) (jobs : Jobs) :
    Idle (Delivery.receive body).1.jobId (start body jobs)
      ∧ ∀ e ∈ (Delivery.receive body).2, e = .acked := by
  unfold start
  rcases Delivery.receive_cases body with ⟨-, hr⟩ | ⟨hp, -⟩ | ⟨content, hp, -, hr⟩
  · rw [hr]
    exact ⟨⟨rfl, rfl, .inr (.inr rfl)⟩, by simp⟩
  · exact absurd (.inl hp) h
  · rw [hr]
    exact ⟨⟨rfl, rfl, .inl rfl⟩, by simp⟩

theorem harmless {body : List UInt8} (hpoison : ¬ Poison pg body) {jobs : Jobs}
    {as : List HandlingAction} {t : Handling} (h : exec (step pg) (start body jobs) as = some t) :
    Harmless pg body jobs as t := by
  have hstep : ∀ l s a u, Sound l s → True → step pg s a = some u →
      Sound (l ++ shown pg s a u) u := fun _ _ _ _ hI _ hs => Sound.step hI hs
  have hsound : Sound (events pg body jobs as) t :=
    exec_trace_inv_append hstep (receive_sound hpoison jobs) steps_true h
  have hrank : as.countP (·.own) + t.delivery.rank ≤ (Delivery.receive body).1.rank :=
    exec_countP_le (fun _ _ _ hs => rank_le hs) h
  have hle := (Delivery.receive body).1.rank_le
  refine ⟨hsound.resolves, by omega, enabled, hsound.settles, fun hR => ?_⟩
  obtain ⟨hidle, hacked⟩ := receive_idle hpoison jobs
  have hidleStep : ∀ s a u, Idle (Delivery.receive body).1.jobId s →
      ((∃ now, a = .claimJob now) → ¬ Names pg body s.jobs) → s.step pg a = some u →
      Idle (Delivery.receive body).1.jobId u ∧ (∀ e ∈ s.shown pg a u, e = .acked)
        ∧ (a.own = true → u.jobs = s.jobs) := fun s a u hI hr hs =>
    hI.step (code_of_not_poison hpoison) (fun hc => get_eq_none (hr hc)) hs
  refine ⟨?_, Steps.of_inv (fun s a u hI hr hs => ?_) hidle hR⟩
  · let I : List DeliveryEvent → Handling → Prop := fun l s =>
      Idle (Delivery.receive body).1.jobId s ∧ ∀ e ∈ l, e = .acked
    have hI : I (events pg body jobs as) t := by
      refine exec_trace_inv_append (I := I) (fun l s a u hI hr hs => ?_) ⟨hidle, hacked⟩ hR h
      obtain ⟨hu, hes, -⟩ := hidleStep s a u hI.1 hr hs
      exact ⟨hu, List.forall_mem_append.2 ⟨hI.2, hes⟩⟩
    exact hI.2
  · obtain ⟨hu, -, hjobs⟩ := hidleStep s a u hI hr hs
    exact ⟨hu, hjobs⟩

/-- The handler of a `jobId` that is refused, and what it has done: it backs off, and requeues the
message. -/
structure Refused (v : Option Json) (l : List DeliveryEvent) (s : Handling) : Prop where
  jobId : s.delivery.jobId = v
  isOpen : s.delivery.channelOpen = true
  phase : (s.delivery.phase = .claimJob ∨ s.delivery.phase = .backoff) ∧ l = []
    ∨ s.delivery.phase = .resolved ∧ l = [.requeued]

theorem Refused.step {v : Option Json} {l : List DeliveryEvent} {s t : Handling}
    {a : HandlingAction} {code : Option String} (h : Refused v l s)
    (herr : pg.param v = .error code) (hne : code ≠ some "22P02") (hs : s.step pg a = some t) :
    Refused v (l ++ s.shown pg a t) t ∧ (a.own = true → t.jobs = s.jobs) := by
  rcases ha : a.own
  · obtain ⟨hd, hnil⟩ := step_others hs ha
    rw [hnil, List.append_nil]
    exact ⟨⟨hd ▸ h.jobId, hd ▸ h.isOpen, hd ▸ h.phase⟩, by simp⟩
  · obtain ⟨b, hb, hd, hshown⟩ := step_own hs ha
    rw [hshown]
    rcases h.phase with ⟨hp | hp, rfl⟩ | ⟨hp, -⟩
    · -- the claim, which throws
      cases a <;> simp only [reply, Option.some.injEq, Prod.mk.injEq, hp, reduceCtorEq] at hb <;>
        try (obtain ⟨rfl, -⟩ := hb; simp [Delivery.step, Delivery.handle, hp] at hd; done)
      case claimJob now =>
        obtain ⟨rfl, hjobs⟩ := hb
        have hclaim : pg.claimJob now s.jobs s.delivery.jobId = (s.jobs, .error code) := by
          rw [Pg.claimJob, h.jobId, herr]
        obtain ⟨ht, hes⟩ := goes_to .backoff [] hd (by
          simp [Delivery.handle, hp, hclaim, isInvalidTextRepresentationError, hne])
        rw [hes]
        refine ⟨⟨?_, ?_, .inl ⟨.inr ?_, rfl⟩⟩, fun _ => by rw [← hjobs, hclaim]⟩ <;> rw [ht]
        · exact h.jobId
        · exact h.isOpen
        · rfl
    · -- the requeue
      cases a <;> simp only [reply, Option.some.injEq, Prod.mk.injEq, hp, reduceCtorEq] at hb <;>
        try (obtain ⟨rfl, -⟩ := hb; simp [Delivery.step, Delivery.handle, hp] at hd; done)
      case wake =>
        obtain ⟨rfl, hjobs⟩ := hb
        obtain ⟨ht, hes⟩ := goes_to .resolved [.requeued] hd (by
          simp [Delivery.handle, hp, Delivery.nack, h.isOpen])
        rw [hes]
        refine ⟨⟨?_, ?_, .inr ⟨?_, rfl⟩⟩, fun _ => hjobs.symm⟩ <;> rw [ht]
        · exact h.jobId
        · exact h.isOpen
        · rfl
    · rw [Delivery.step_ended (by rw [hp]; rfl)] at hd
      cases hd

/-- All that the handler does with such a message is requeue it. -/
theorem requeued_of_refused {body : List UInt8} {v : Option Json} {code : Option String}
    (hread : Delivery.receive body = ({ jobId := v, phase := .claimJob }, []))
    (herr : pg.param v = .error code) (hne : code ≠ some "22P02") {jobs : Jobs}
    {as : List HandlingAction} {t : Handling} (h : exec (step pg) (start body jobs) as = some t) :
    events pg body jobs as = (if t.delivery.phase.ended = true then [.requeued] else [])
      ∧ Steps (step pg) (fun s a t => a.own = true → t.jobs = s.jobs) (start body jobs) as := by
  have hinit : Refused v (Delivery.receive body).2 (start body jobs) := by
    rw [start, hread]
    exact ⟨rfl, rfl, .inl ⟨.inl rfl, rfl⟩⟩
  have hI : Refused v (events pg body jobs as) t :=
    exec_trace_inv_append (fun _ _ _ _ hI _ hs => (hI.step herr hne hs).1) hinit steps_true h
  refine ⟨?_, ?_⟩
  · rcases hI.phase with ⟨hp | hp, hl⟩ | ⟨hp, hl⟩ <;> rw [hl, hp] <;> rfl
  · refine Steps.of_inv (I := fun s => ∃ l, Refused v l s) (fun s a u ⟨l, hI⟩ _ hs => ?_)
      ⟨_, hinit⟩ steps_true
    obtain ⟨hu, hjobs⟩ := hI.step herr hne hs
    exact ⟨⟨_, hu⟩, hjobs⟩

/-- With an empty table no body names a job; but a poison is not discarded. -/
theorem poison_harms {body : List UInt8} (h : Poison pg body) : ∃ jobs as t,
    exec (step pg) (start body jobs) as = some t ∧ ¬ Harmless pg body jobs as t := by
  rcases Delivery.receive_cases body with ⟨hp, hr⟩ | ⟨hp, hr⟩ | ⟨content, hp, hne, hr⟩
  · rcases h with h | ⟨content, v, h, -⟩ <;> rw [hp] at h <;> cases h
  · refine ⟨Table.empty, [], _, rfl, fun hh => hh.resolves ?_⟩
    rw [start, hr]
  · obtain ⟨v, hv, hrefuses⟩ : ∃ v, content.get jobIdKey = some v ∧ pg.Refuses v := by
      rcases h with h | ⟨content', v, h, hv⟩
      · exact absurd (Option.some.inj (hp.symm.trans h)) hne
      · obtain rfl := Option.some.inj (hp.symm.trans h)
        exact ⟨v, hv⟩
    obtain ⟨code, hcode, hne⟩ := param_refused.2 ⟨v, hv, hrefuses⟩
    have hclaim : pg.claimJob 0 Table.empty (content.get jobIdKey)
        = (Table.empty, .error code) := by
      rw [Pg.claimJob, hcode]
    have hstart : start body Table.empty
        = ⟨{ jobId := content.get jobIdKey, phase := .claimJob }, Table.empty⟩ := by
      rw [start, hr]
    have hfirst : (start body Table.empty).step pg (.claimJob 0)
        = some ⟨{ jobId := content.get jobIdKey, phase := .backoff }, Table.empty⟩ := by
      rw [hstart]
      simp only [step, reply, hclaim, Option.bind_some, Delivery.step, Delivery.handle,
        isInvalidTextRepresentationError, hne, decide_false, Bool.false_eq_true, if_false,
        Option.map_some, Delivery.go]
    have hexec : exec (step pg) (start body Table.empty) [.claimJob 0, .wake]
        = some ⟨{ jobId := content.get jobIdKey, phase := .resolved }, Table.empty⟩ :=
      exec_cons.2 ⟨_, hfirst, rfl⟩
    refine ⟨Table.empty, _, _, hexec, fun hh => ?_⟩
    have hnone : Steps (step pg) (fun s a _ => (∃ now, a = .claimJob now) → ¬ Names pg body s.jobs)
        (start body Table.empty) [.claimJob 0, .wake] := by
      refine steps_cons.2 fun u hu => ⟨fun _ => ?_, steps_cons.2 fun w hw => ⟨by simp, trivial⟩⟩
      rintro ⟨_, id, job, -, -, hj⟩
      simp [start] at hj
    have hevents : DeliveryEvent.requeued ∈ events pg body Table.empty [.claimJob 0, .wake] := by
      rw [events, trace_cons hfirst]
      exact List.mem_append_right _ (List.mem_append_right _ (List.mem_singleton_self
        DeliveryEvent.requeued))
    exact absurd ((hh.discards hnone).1 _ hevents) (by simp)

/-- The database being reachable and the channel open, a delivery of a body does no harm, whatever
the table and its changes are and however the publishes go, just where the body is no poison. -/
theorem harmless_iff_not_poison (pg : Pg) (body : List UInt8) :
    (∀ jobs as t, exec (step pg) (start body jobs) as = some t → Harmless pg body jobs as t)
      ↔ ¬ Poison pg body := by
  refine ⟨fun hall hpoison => ?_, fun hpoison jobs as t h => harmless hpoison h⟩
  obtain ⟨jobs, as, t, h, hharm⟩ := poison_harms hpoison
  exact hharm (hall jobs as t h)

/-- node-postgres and PostgreSQL where the only parameters are strings that are no UUID. -/
def stringsOnly : Pg where
  text v := match v with
    | .string s => some s
    | _ => some []
  uuid _ := none
  text_string _ := rfl

/-- The bytes of `null`. -/
def nullBody : List UInt8 := [0x6E, 0x75, 0x6C, 0x6C]

/-- The bytes of an object whose `jobId` is the string of one NUL, as `\u0000`. -/
def nulBody : List UInt8 :=
  [0x7B, 0x22, 0x6A, 0x6F, 0x62, 0x49, 0x64, 0x22, 0x3A, 0x22, 0x5C, 0x75, 0x30, 0x30, 0x30, 0x30,
    0x22, 0x7D]

/-- The handler rejects the one body, and requeues the other, which names no job. -/
theorem null_and_nul_harm :
    (∃ t, exec (step stringsOnly) (start nullBody Table.empty) [] = some t
      ∧ t.delivery.phase = .rejected ∧ ¬ Harmless stringsOnly nullBody Table.empty [] t)
    ∧ ∃ t, exec (step stringsOnly) (start nulBody Table.empty) [.claimJob 0, .wake] = some t
      ∧ events stringsOnly nulBody Table.empty [.claimJob 0, .wake] = [.requeued]
      ∧ ¬ Harmless stringsOnly nulBody Table.empty [.claimJob 0, .wake] t := by
  refine ⟨⟨_, rfl, rfl, fun hh => hh.resolves rfl⟩, _, rfl, rfl, fun hh => ?_⟩
  have hnone : Steps (step stringsOnly)
      (fun s a _ => (∃ now, a = .claimJob now) → ¬ Names stringsOnly nulBody s.jobs)
      (start nulBody Table.empty) [.claimJob 0, .wake] := by
    refine steps_cons.2 fun u hu => ⟨fun _ => ?_, steps_cons.2 fun w hw => ⟨by simp, trivial⟩⟩
    rintro ⟨_, id, job, -, -, hj⟩
    simp [start] at hj
  exact absurd ((hh.discards hnone).1 .requeued (List.mem_singleton_self _)) (by simp)

end Handling

end DeadLetter
