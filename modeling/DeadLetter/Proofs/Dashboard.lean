import DeadLetter.Dashboard
import DeadLetter.Transition

/-!
# The selected job is the one shown

A response is written to the state whatever is selected by then. So the dashboard shows and replays
the selected job, and lets go of it for its own 404 only, in exactly the runs whose responses are
timely. In every run, the job on the page has one replay in flight at most.
-/

namespace DeadLetter

open Transition

namespace Dashboard

theorem eventEffect_selected (s : Dashboard) : s.eventEffect.selectedJobId = s.selectedJobId
    ∧ s.eventEffect.selectedJob = s.selectedJob := by
  unfold eventEffect
  split
  · split_ifs <;> exact ⟨rfl, rfl⟩
  · exact ⟨rfl, rfl⟩

theorem right_iff (s : Dashboard) : s.Right
    ↔ ∀ id job, s.selectedJobId = some id → s.selectedJob = some job → job.id = id := by
  unfold Right rendered
  rcases s.selectedJobId with _ | id
  · simp
  · exact ⟨fun h _ job hid hjob => Option.some.inj ((h job hjob).symm.trans hid),
      fun h job hjob => congrArg some (h id job rfl hjob).symm⟩

theorem right_deselect (s : Dashboard) : s.deselect.Right := fun _ h => by
  simp [rendered, deselect] at h

/-- A step that keeps the selection and the job keeps what is shown. -/
theorem Right.of_eq {s t : Dashboard} (h : s.Right) (hid : t.selectedJobId = s.selectedJobId)
    (hjob : t.selectedJob = s.selectedJob) : t.Right := by
  rw [right_iff] at h ⊢
  rw [hid, hjob]
  exact h

theorem Right.replayed {s : Dashboard} (h : s.Right) {a : DashboardAction} {id : Uuid}
    (hid : s.replayed a = some id) : s.selectedJobId = some id := by
  cases a <;> simp only [Dashboard.replayed, reduceCtorEq, Option.map_eq_some_iff] at hid
  obtain ⟨job, hjob, rfl⟩ := hid
  exact h job hjob

/-- A step that keeps the selection and what is shown is right and timely both. -/
theorem Right.rightStep {s t : Dashboard} {a : DashboardAction} (h : s.Right)
    (hid : t.selectedJobId = s.selectedJobId) (ht : t.Right) : RightStep s a t :=
  ⟨ht, fun _ hid => h.replayed hid, fun _ _ _ => hid⟩

theorem handleSelect_eq {s t : Dashboard} {id : Uuid} (h : s.handleSelect id = some t) :
    t.selectedJobId = some id ∧ t.selectedJob = s.selectedJob := by
  unfold handleSelect at h
  split at h
  · rw [Option.ite_none_right_eq_some, Option.some.injEq] at h
    obtain ⟨-, rfl⟩ := h
    exact eventEffect_selected _
  · cases h

theorem handleReplay_eq {s t : Dashboard} (h : s.handleReplay = some t) :
    t.selectedJobId = s.selectedJobId ∧ t.selectedJob = s.selectedJob := by
  unfold handleReplay at h
  split at h
  · rw [Option.ite_none_right_eq_some, Option.some.injEq] at h
    obtain ⟨-, rfl⟩ := h
    exact ⟨rfl, rfl⟩
  · cases h

/-- Where the selected job is shown, a step is right just where it is timely. -/
theorem Right.rightStep_iff {s t : Dashboard} {a : DashboardAction} (h : s.Right)
    (ht : s.step a = some t) : RightStep s a t ↔ Timely s a := by
  have hkept : t.selectedJobId = s.selectedJobId → t.selectedJob = s.selectedJob →
      RightStep s a t := fun hid hjob => h.rightStep hid (h.of_eq hid hjob)
  cases a with
  | overview jobs =>
    obtain rfl := Option.some.inj ht
    exact iff_of_true (hkept rfl rfl) trivial
  | select id =>
    obtain ⟨hid, hjob⟩ := handleSelect_eq ht
    refine ⟨fun hr job hj => ?_, fun htimely => ⟨?_, by simp [Dashboard.replayed], by simp⟩⟩
    · exact (right_iff t).1 hr.shows id job hid (hjob.trans hj)
    · refine (right_iff t).2 fun id' job hid' hj => ?_
      rw [htimely job (hjob ▸ hj), Option.some.inj (hid.symm.trans hid')]
  | back =>
    obtain ⟨_, -, rfl⟩ := Option.map_eq_some_iff.1 ht
    exact iff_of_true ⟨right_deselect s, by simp [Dashboard.replayed], by simp⟩ trivial
  | jobUpdated id =>
    obtain rfl := Option.some.inj ht
    obtain ⟨hid, hjob⟩ := eventEffect_selected { s with lastEvent := some id }
    exact iff_of_true (hkept hid hjob) trivial
  | replay =>
    obtain ⟨hid, hjob⟩ := handleReplay_eq ht
    exact iff_of_true (hkept hid hjob) trivial
  | replayReply replay ok =>
    rw [step, Option.ite_none_right_eq_some, Option.some.injEq] at ht
    obtain ⟨-, rfl⟩ := ht
    refine iff_of_true ?_ trivial
    cases ok <;> exact hkept rfl rfl
  | job job =>
    rw [step, Option.ite_none_right_eq_some, Option.some.injEq] at ht
    obtain ⟨-, rfl⟩ := ht
    refine ⟨fun hr => ?_, fun htimely => h.rightStep rfl ?_⟩
    · rcases hid : s.selectedJobId with _ | id
      · exact .inl hid
      · have := (right_iff _).1 hr.shows id job hid rfl
        exact .inr (by rw [hid, this])
    · refine (right_iff _).2 fun id job' hid hjob => ?_
      obtain rfl : job = job' := Option.some.inj hjob
      rcases htimely with hnone | hsome
      · exact absurd (hnone.symm.trans hid) (by simp)
      · exact Option.some.inj (hsome.symm.trans hid)
  | notFound id =>
    rw [step, Option.ite_none_right_eq_some, Option.some.injEq] at ht
    obtain ⟨-, rfl⟩ := ht
    refine ⟨fun hr => ?_, fun htimely =>
      ⟨right_deselect _, by simp [Dashboard.replayed], ?_⟩⟩
    · by_cases hid : s.selectedJobId = some id
      · exact .inr hid
      · exact .inl (hr.clears id rfl hid).symm
    · rintro _ h' hne
      obtain rfl := DashboardAction.notFound.inj h'
      rcases htimely with hnone | hsome
      · exact hnone.symm
      · exact absurd hsome hne
  | failed id =>
    rw [step, Option.ite_none_right_eq_some, Option.some.injEq] at ht
    obtain ⟨-, rfl⟩ := ht
    exact iff_of_true (hkept rfl rfl) trivial

/-- In a run, the dashboard shows and replays the selected job only, and clears the selection for
its own 404 only, just where every response of the run is timely. -/
theorem shows_selected_iff_timely (as : List DashboardAction) :
    Steps step RightStep {} as ↔ Steps step (fun s a _ => Timely s a) {} as := by
  have hstart : Right {} := by simp [Right, rendered]
  exact steps_congr (fun _ _ _ _ hr _ => hr.shows) (fun _ _ _ h ht => h.rightStep_iff ht) hstart

/-! ## Replays in flight -/

theorem eventEffect_replays (s : Dashboard) : s.eventEffect.replays = s.replays := by
  unfold eventEffect
  split
  · split_ifs <;> rfl
  · rfl

/-- A step ends replays, or takes their `JobDetail` off the page, or begins one where that has none
in flight. -/
theorem replays_of_step {s t : Dashboard} {a : DashboardAction} (h : s.step a = some t) :
    t.replays.Sublist s.replays ∨ (∀ replay ∈ t.replays, replay.mounted = false)
      ∨ s.replaying = false ∧ ∃ replay, t.replays = s.replays ++ [replay] := by
  have hdeselect : ∀ u : Dashboard, ∀ replay ∈ u.deselect.replays, replay.mounted = false := by
    intro u replay hr
    obtain ⟨_, -, rfl⟩ := List.mem_map.1 hr
    rfl
  cases a with
  | overview jobs => exact .inl (Option.some.inj h ▸ List.Sublist.refl _)
  | select id =>
    simp only [step, handleSelect] at h
    split at h
    · rw [Option.ite_none_right_eq_some, Option.some.injEq] at h
      obtain ⟨-, rfl⟩ := h
      refine .inl ?_
      rw [eventEffect_replays]
      exact List.Sublist.refl _
    · cases h
  | back =>
    obtain ⟨_, -, rfl⟩ := Option.map_eq_some_iff.1 h
    exact .inr (.inl (hdeselect s))
  | jobUpdated id =>
    obtain rfl := Option.some.inj h
    refine .inl ?_
    rw [eventEffect_replays]
  | replay =>
    simp only [step, handleReplay] at h
    split at h
    · rw [Option.ite_none_right_eq_some, Option.some.injEq] at h
      obtain ⟨⟨-, hr⟩, rfl⟩ := h
      exact .inr (.inr ⟨hr, _, rfl⟩)
    · cases h
  | replayReply replay ok =>
    rw [step, Option.ite_none_right_eq_some, Option.some.injEq] at h
    obtain ⟨-, rfl⟩ := h
    refine .inl ?_
    cases ok <;> exact List.erase_sublist
  | notFound id =>
    rw [step, Option.ite_none_right_eq_some, Option.some.injEq] at h
    obtain ⟨-, rfl⟩ := h
    exact .inr (.inl (hdeselect _))
  | job _ | failed _ =>
    rw [step, Option.ite_none_right_eq_some, Option.some.injEq] at h
    obtain ⟨-, rfl⟩ := h
    exact .inl (List.Sublist.refl _)

/-- The `JobDetail` on the page has one replay in flight at most. -/
theorem one_replay_mounted {as : List DashboardAction} {s : Dashboard}
    (h : exec step {} as = some s) : s.replays.countP (·.mounted) ≤ 1 := by
  refine exec_inv (I := fun s : Dashboard => s.replays.countP (·.mounted) ≤ 1)
    (fun s a t hI h => ?_) (by simp) h
  rcases replays_of_step h with hsub | hnone | ⟨hs, replay, ht⟩
  · exact (hsub.countP_le).trans hI
  · rw [List.countP_eq_zero.2 (by simpa using hnone)]
    exact Nat.zero_le _
  · have hzero : s.replays.countP (·.mounted) = 0 :=
      List.countP_eq_zero.2 (by simpa [replaying] using hs)
    rw [ht, List.countP_append, hzero, Nat.zero_add]
    exact List.countP_le_length

/-- An event has job 1 fetched again; the answer comes when job 2 is selected, and the operator
replays what is shown. -/
def staleAnswer : List DashboardAction :=
  [.overview [1, 2], .select 1, .job ⟨1, .deadLettered⟩, .jobUpdated 1, .back, .select 2,
    .job ⟨1, .deadLettered⟩, .replay]

theorem stale_answer_replays : ∃ s,
    exec step {} staleAnswer = some s ∧ s.selectedJobId = some 2
      ∧ s.rendered = some ⟨1, .deadLettered⟩ ∧ s.replays = [⟨1, 2, true⟩]
      ∧ ¬ Steps step RightStep {} staleAnswer := by
  refine ⟨_, rfl, rfl, rfl, rfl, fun h => ?_⟩
  have hshows := (steps_iff.1 h [.overview [1, 2], .select 1, .job ⟨1, .deadLettered⟩,
    .jobUpdated 1, .back, .select 2] (.job ⟨1, .deadLettered⟩) [.replay] rfl _ _ rfl rfl).shows
  exact absurd (hshows ⟨1, .deadLettered⟩ rfl) (by decide)

end Dashboard

end DeadLetter
