import Mathlib.Data.List.Infix
import Mathlib.Tactic.Common

/-!
# Runs of a step function

A system is a step function: an action taken at a state leads to one state, or is not enabled.
`exec` takes a list of actions, `trace` collects what the steps of a run show to an observer, and
`Steps` says that every step of a run is as a relation allows. An invariant is proved from one
step, and holds of whole runs by `exec_inv` and its variants; `Inv.of_trace` is the variant whose
invariant speaks of the history too.
-/

namespace Transition

variable {σ τ ι κ ω : Type*} (step : σ → ι → Option σ)

/-- The state a list of actions leads to, if each is enabled in its turn. -/
def exec : σ → List ι → Option σ
  | s, [] => some s
  | s, a :: as => (step s a).bind fun t => exec t as

/-- What the steps of a run show, in order. -/
def trace (obs : σ → ι → σ → List ω) : σ → List ι → List ω
  | _, [] => []
  | s, a :: as => match step s a with
    | none => []
    | some t => obs s a t ++ trace obs t as

/-- Every step of the run is one `R` allows. -/
def Steps (R : σ → ι → σ → Prop) : σ → List ι → Prop
  | _, [] => True
  | s, a :: as => match step s a with
    | none => True
    | some t => R s a t ∧ Steps R t as

variable {step}

theorem exec_cons {s u : σ} {a : ι} {as : List ι} :
    exec step s (a :: as) = some u ↔ ∃ t, step s a = some t ∧ exec step t as = some u := by
  simp [exec, Option.bind_eq_some_iff]

theorem exec_append {as bs : List ι} : ∀ {s u : σ}, exec step s (as ++ bs) = some u ↔
    ∃ t, exec step s as = some t ∧ exec step t bs = some u := by
  induction as with
  | nil => simp [exec]
  | cons a as ih =>
    intro s u
    simp only [List.cons_append, exec_cons, ih]
    constructor
    · rintro ⟨t, ht, v, hv, hu⟩
      exact ⟨v, ⟨t, ht, hv⟩, hu⟩
    · rintro ⟨v, ⟨t, ht, hv⟩, hu⟩
      exact ⟨t, ht, v, hv, hu⟩

theorem exec_singleton {s u : σ} {a : ι} : exec step s [a] = some u ↔ step s a = some u := by
  simp [exec]

theorem trace_append {obs : σ → ι → σ → List ω} {as bs : List ι} : ∀ {s t : σ},
    exec step s as = some t →
      trace step obs s (as ++ bs) = trace step obs s as ++ trace step obs t bs := by
  induction as with
  | nil =>
    intro s t h
    simp only [exec, Option.some.injEq] at h
    simp [trace, h]
  | cons a as ih =>
    intro s t h
    obtain ⟨u, hu, ht⟩ := exec_cons.1 h
    simp only [List.cons_append, trace, hu, ih ht, List.append_assoc]

theorem trace_cons {obs : σ → ι → σ → List ω} {as : List ι} {a : ι} {s t : σ}
    (h : step s a = some t) : trace step obs s (a :: as) = obs s a t ++ trace step obs t as := by
  rw [trace, h]

theorem filterMap_trace {ρ : Type*} {obs : σ → ι → σ → List ω} (f : ω → Option ρ) :
    ∀ {as : List ι} {s : σ},
      (trace step obs s as).filterMap f = trace step (fun s a t => (obs s a t).filterMap f) s as
  | [], _ => rfl
  | a :: as, s => by
    rw [trace, trace]
    rcases step s a with _ | t
    · rfl
    · simp only [List.filterMap_append, filterMap_trace f]

theorem map_trace {ρ : Type*} {obs : σ → ι → σ → List ω} (f : ω → ρ) {as : List ι} {s : σ} :
    (trace step obs s as).map f = trace step (fun s a t => (obs s a t).map f) s as := by
  simp only [← List.filterMap_eq_map, filterMap_trace]

theorem mem_trace {obs : σ → ι → σ → List ω} {bs cs : List ι} {a : ι} {s t u : σ} {x : ω}
    (ht : exec step s bs = some t) (hu : step t a = some u) (hx : x ∈ obs t a u) :
    x ∈ trace step obs s (bs ++ a :: cs) := by
  rw [trace_append ht, trace_cons hu]
  exact List.mem_append_right _ (List.mem_append_left _ hx)

theorem exists_of_mem_trace {obs : σ → ι → σ → List ω} {x : ω} : ∀ {as : List ι} {s : σ},
    x ∈ trace step obs s as → ∃ a ∈ as, ∃ t u, step t a = some u ∧ x ∈ obs t a u
  | [], _, h => by simp [trace] at h
  | a :: as, s, h => by
    rw [trace] at h
    rcases ht : step s a with _ | t <;> rw [ht] at h
    · simp at h
    · rcases List.mem_append.1 h with h | h
      · exact ⟨a, List.mem_cons_self, s, t, ht, h⟩
      · obtain ⟨b, hb, hx⟩ := exists_of_mem_trace h
        exact ⟨b, List.mem_cons_of_mem _ hb, hx⟩

/-! ## Conditions on the steps of a run -/

theorem steps_cons {R : σ → ι → σ → Prop} {s : σ} {a : ι} {as : List ι} :
    Steps step R s (a :: as) ↔ ∀ t, step s a = some t → R s a t ∧ Steps step R t as := by
  rw [Steps]
  rcases step s a with _ | t <;> simp

instance Steps.decidable {R : σ → ι → σ → Prop} [∀ s a t, Decidable (R s a t)] :
    ∀ (s : σ) (as : List ι), Decidable (Steps step R s as)
  | _, [] => isTrue trivial
  | s, a :: as => match h : step s a with
    | none => isTrue (by rw [Steps, h]; trivial)
    | some t => have : Decidable (Steps step R t as) := Steps.decidable t as
      decidable_of_iff (R s a t ∧ Steps step R t as) (by rw [Steps, h])

theorem Steps.mono {R Q : σ → ι → σ → Prop} (hRQ : ∀ s a t, R s a t → Q s a t) :
    ∀ {as : List ι} {s : σ}, Steps step R s as → Steps step Q s as
  | [], _, _ => trivial
  | _ :: _, _, h => steps_cons.2 fun t ht =>
    ⟨hRQ _ _ _ (steps_cons.1 h t ht).1, (steps_cons.1 h t ht).2.mono hRQ⟩

/-- A run is as `R` allows exactly when each of its steps is, wherever the run is cut. -/
theorem steps_iff {R : σ → ι → σ → Prop} : ∀ {as : List ι} {s : σ}, Steps step R s as ↔
    ∀ bs a cs, as = bs ++ a :: cs → ∀ t u, exec step s bs = some t → step t a = some u → R t a u
  | [], s => by simp [Steps]
  | a :: as, s => by
    constructor
    · intro h bs b cs hb t u ht hu
      have h := steps_cons.1 h
      cases bs with
      | nil =>
        obtain ⟨rfl, rfl⟩ : a = b ∧ as = cs := by simpa using hb
        obtain rfl : s = t := by simpa [exec] using ht
        exact (h u hu).1
      | cons c bs =>
        obtain ⟨rfl, rfl⟩ : a = c ∧ as = bs ++ b :: cs := by simpa using hb
        obtain ⟨v, hv, hvt⟩ := exec_cons.1 ht
        exact steps_iff.1 (h v hv).2 bs b cs rfl t u hvt hu
    · intro h
      refine steps_cons.2 fun t ht => ?_
      refine ⟨h [] a as rfl s t rfl ht, steps_iff.2 fun bs b cs hb u v hu hv => ?_⟩
      exact h (a :: bs) b cs (by rw [hb]; rfl) u v (exec_cons.2 ⟨t, ht, hu⟩) hv

theorem Steps.left {R : σ → ι → σ → Prop} {as bs : List ι} {s : σ}
    (h : Steps step R s (as ++ bs)) : Steps step R s as := by
  refine steps_iff.2 fun cs a ds hc t u ht hu => ?_
  exact steps_iff.1 h cs a (ds ++ bs) (by simp [hc]) t u ht hu

theorem Steps.right {R : σ → ι → σ → Prop} {as bs : List ι} {s t : σ}
    (h : Steps step R s (as ++ bs)) (ht : exec step s as = some t) : Steps step R t bs := by
  refine steps_iff.2 fun cs a ds hc u v hu hv => ?_
  exact steps_iff.1 h (as ++ cs) a ds (by simp [hc]) u v (exec_append.2 ⟨t, ht, hu⟩) hv

theorem Steps.append {R : σ → ι → σ → Prop} {as bs : List ι} : ∀ {s t : σ},
    Steps step R s as → exec step s as = some t → Steps step R t bs →
      Steps step R s (as ++ bs) := by
  induction as with
  | nil =>
    intro s t _ ht h
    obtain rfl : s = t := by simpa [exec] using ht
    exact h
  | cons a as ih =>
    intro s t hs ht h
    obtain ⟨u, hu, ht⟩ := exec_cons.1 ht
    refine steps_cons.2 fun v hv => ?_
    obtain rfl : u = v := by rw [hu] at hv; exact Option.some.inj hv
    exact ⟨(steps_cons.1 hs u hu).1, ih (steps_cons.1 hs u hu).2 ht h⟩

theorem Steps.and {R Q : σ → ι → σ → Prop} {as : List ι} {s : σ} (hR : Steps step R s as)
    (hQ : Steps step Q s as) : Steps step (fun s a t => R s a t ∧ Q s a t) s as :=
  steps_iff.2 fun bs a cs hb t u ht hu =>
    ⟨steps_iff.1 hR bs a cs hb t u ht hu, steps_iff.1 hQ bs a cs hb t u ht hu⟩

theorem steps_of_forall {p : ι → Prop} {as : List ι} {s : σ} (h : ∀ a ∈ as, p a) :
    Steps step (fun _ a _ => p a) s as :=
  steps_iff.2 fun _ a _ hb _ _ _ _ => h a (by simp [hb])

theorem steps_true {s : σ} {as : List ι} : Steps step (fun _ _ _ => True) s as :=
  steps_iff.2 fun _ _ _ _ _ _ _ _ => trivial

/-- A run shows nothing just where none of its steps does. -/
theorem trace_eq_nil_iff {obs : σ → ι → σ → List ω} : ∀ {as : List ι} {s : σ},
    trace step obs s as = [] ↔ Steps step (fun s a t => obs s a t = []) s as
  | [], s => by simp [trace, Steps]
  | a :: as, s => by
    rw [trace, Steps]
    rcases step s a with _ | t
    · simp
    · simp only [List.append_eq_nil_iff, trace_eq_nil_iff]

/-! ## Invariants -/

/-- What one step keeps, along steps of a kind, a run of such steps keeps. -/
theorem exec_inv_of_steps {I : σ → Prop} {R : σ → ι → σ → Prop}
    (hstep : ∀ s a t, I s → R s a t → step s a = some t → I t) :
    ∀ {as : List ι} {s t : σ}, I s → Steps step R s as → exec step s as = some t → I t
  | [], s, t, hs, _, h => by
    simp only [exec, Option.some.injEq] at h
    exact h ▸ hs
  | a :: as, s, t, hs, hR, h => by
    obtain ⟨u, hu, ht⟩ := exec_cons.1 h
    obtain ⟨hr, hR⟩ := steps_cons.1 hR u hu
    exact exec_inv_of_steps hstep (hstep s a u hs hr hu) hR ht

/-- An invariant of the steps of a kind tells what each of them does. -/
theorem Steps.of_inv {I : σ → Prop} {R Q : σ → ι → σ → Prop}
    (hstep : ∀ s a t, I s → R s a t → step s a = some t → I t ∧ Q s a t) :
    ∀ {as : List ι} {s : σ}, I s → Steps step R s as → Steps step Q s as
  | [], _, _, _ => trivial
  | a :: as, s, hs, hR => by
    refine steps_cons.2 fun t ht => ?_
    obtain ⟨hr, hR⟩ := steps_cons.1 hR t ht
    obtain ⟨hI, hq⟩ := hstep s a t hs hr ht
    exact ⟨hq, Steps.of_inv hstep hI hR⟩

/-- Where an invariant makes two conditions on a step the same, they are the same on a run. -/
theorem steps_congr {I : σ → Prop} {R Q : σ → ι → σ → Prop}
    (hI : ∀ s a t, I s → R s a t → step s a = some t → I t)
    (hRQ : ∀ s a t, I s → step s a = some t → (R s a t ↔ Q s a t)) :
    ∀ {as : List ι} {s : σ}, I s → (Steps step R s as ↔ Steps step Q s as)
  | [], _, _ => Iff.rfl
  | a :: as, s, hs => by
    rw [steps_cons, steps_cons]
    refine forall_congr' fun t => imp_congr_right fun ht => ?_
    rw [← hRQ s a t hs ht]
    exact and_congr_right fun hR => steps_congr hI hRQ (hI s a t hs hR ht)

theorem exec_inv {I : σ → Prop} (hstep : ∀ s a t, I s → step s a = some t → I t)
    {as : List ι} {s t : σ} (hs : I s) (h : exec step s as = some t) : I t :=
  exec_inv_of_steps (fun s a t hs _ => hstep s a t hs) hs steps_true h

/-- A run has no more steps of a kind than they take off a rank that no step adds to. -/
theorem exec_countP_le {rank : σ → ℕ} {p : ι → Bool}
    (h : ∀ s a t, step s a = some t → rank t + (if p a = true then 1 else 0) ≤ rank s) :
    ∀ {as : List ι} {s t : σ}, exec step s as = some t → as.countP p + rank t ≤ rank s
  | [], s, t, ht => by
    simp only [exec, Option.some.injEq] at ht
    simp [ht]
  | a :: as, s, t, ht => by
    obtain ⟨u, hu, ht⟩ := exec_cons.1 ht
    have hle := exec_countP_le h ht
    have hlt := h s a u hu
    rw [List.countP_cons]
    omega

theorem exec_trace_inv_append {obs : σ → ι → σ → List ω} {I : List ω → σ → Prop}
    {R : σ → ι → σ → Prop}
    (hstep : ∀ l s a t, I l s → R s a t → step s a = some t → I (l ++ obs s a t) t) :
    ∀ {as : List ι} {s t : σ} {l : List ω}, I l s → Steps step R s as →
      exec step s as = some t → I (l ++ trace step obs s as) t
  | [], s, t, l, hs, _, h => by
    simp only [exec, Option.some.injEq] at h
    simpa [trace, ← h] using hs
  | a :: as, s, t, l, hs, hR, h => by
    obtain ⟨u, hu, ht⟩ := exec_cons.1 h
    obtain ⟨hr, hR⟩ := steps_cons.1 hR u hu
    have := exec_trace_inv_append hstep (hstep l s a u hs hr hu) hR ht
    simpa [trace, hu, List.append_assoc] using this

/-- The rule for an invariant of the state and of what the run has shown so far. -/
theorem exec_trace_inv_of_steps {obs : σ → ι → σ → List ω} {I : List ω → σ → Prop}
    {R : σ → ι → σ → Prop}
    (hstep : ∀ l s a t, I l s → R s a t → step s a = some t → I (l ++ obs s a t) t)
    {as : List ι} {s t : σ} (hs : I [] s) (hR : Steps step R s as) (h : exec step s as = some t) :
    I (trace step obs s as) t :=
  exec_trace_inv_append hstep hs hR h

theorem exec_trace_inv {obs : σ → ι → σ → List ω} {I : List ω → σ → Prop}
    (hstep : ∀ l s a t, I l s → step s a = some t → I (l ++ obs s a t) t)
    {as : List ι} {s t : σ} (hs : I [] s) (h : exec step s as = some t) :
    I (trace step obs s as) t :=
  exec_trace_inv_of_steps (fun l s a t hs _ => hstep l s a t hs) hs steps_true h

/-- What an invariant makes sure of all that one step shows holds of all that a run does. -/
theorem forall_mem_trace {obs : σ → ι → σ → List ω} {I : σ → Prop} {Q : ω → Prop}
    (hstep : ∀ s a t, I s → step s a = some t → I t ∧ ∀ x ∈ obs s a t, Q x) :
    ∀ {as : List ι} {s : σ}, I s → ∀ x ∈ trace step obs s as, Q x
  | [], _, _, x, hx => by simp [trace] at hx
  | a :: as, s, hs, x, hx => by
    rw [trace] at hx
    rcases ht : step s a with _ | t <;> rw [ht] at hx
    · simp at hx
    · obtain ⟨hI, hq⟩ := hstep s a t hs ht
      rcases List.mem_append.1 hx with hx | hx
      · exact hq x hx
      · exact forall_mem_trace hstep hI x hx

/-- The rule for an invariant of the state and of the run that has led to it. -/
theorem exec_run_inv {I : List ι → σ → Prop} {s : σ} (hs : I [] s)
    (hstep : ∀ as t a u, exec step s as = some t → I as t → step t a = some u → I (as ++ [a]) u)
    {as : List ι} {t : σ} (h : exec step s as = some t) : I as t := by
  induction as using List.reverseRecOn generalizing t with
  | nil =>
    simp only [exec, Option.some.injEq] at h
    exact h ▸ hs
  | append_singleton as a ih =>
    obtain ⟨u, hu, ht⟩ := exec_append.1 h
    exact hstep as u a t hu (ih hu) (exec_singleton.1 ht)

/-! ## What can be reached -/

variable (step) in
/-- Steps that `R` allows lead from the one state to the other. -/
def Can (R : σ → ι → σ → Prop) (s t : σ) : Prop :=
  ∃ as, exec step s as = some t ∧ Steps step R s as

theorem Can.refl {R : σ → ι → σ → Prop} (s : σ) : Can step R s s := ⟨[], rfl, trivial⟩

theorem Can.trans {R : σ → ι → σ → Prop} {s t u : σ} (h : Can step R s t) (h' : Can step R t u) :
    Can step R s u := by
  obtain ⟨as, ht, hR⟩ := h
  obtain ⟨bs, hu, hR'⟩ := h'
  exact ⟨as ++ bs, exec_append.2 ⟨t, ht, hu⟩, hR.append ht hR'⟩

theorem can_step {R : σ → ι → σ → Prop} {s t : σ} {a : ι} (h : step s a = some t)
    (hR : R s a t) : Can step R s t := by
  refine ⟨[a], exec_singleton.2 h, steps_cons.2 fun u hu => ⟨?_, trivial⟩⟩
  obtain rfl : t = u := by rw [h] at hu; exact Option.some.inj hu
  exact hR

theorem Can.mono {R Q : σ → ι → σ → Prop} (hRQ : ∀ s a t, R s a t → Q s a t) {s t : σ}
    (h : Can step R s t) : Can step Q s t :=
  h.imp fun _ h => ⟨h.1, h.2.mono hRQ⟩

theorem Can.inv {I : σ → Prop} {R : σ → ι → σ → Prop}
    (hstep : ∀ s a t, I s → step s a = some t → I t) {s t : σ} (hs : I s) (h : Can step R s t) :
    I t := by
  obtain ⟨as, ht, -⟩ := h
  exact exec_inv hstep hs ht

/-- Where a state that is not done leads to one of less rank, a state that is done is reached. -/
theorem can_of_rank {R : σ → ι → σ → Prop} {I done : σ → Prop} (rank : σ → ℕ)
    (h : ∀ s, I s → ¬ done s → ∃ t, Can step R s t ∧ I t ∧ rank t < rank s) {s : σ} (hs : I s) :
    ∃ t, Can step R s t ∧ I t ∧ done t := by
  induction hn : rank s using Nat.strong_induction_on generalizing s with
  | _ n ih =>
    by_cases hd : done s
    · exact ⟨s, .refl s, hs, hd⟩
    · obtain ⟨t, hst, ht, hlt⟩ := h s hs hd
      obtain ⟨u, htu, hu⟩ := ih _ (hn ▸ hlt) ht rfl
      exact ⟨u, hst.trans htu, hu⟩

/-- Where each part can be made idle with no other disturbed, so can the first `n` of them. -/
theorem can_each {R : σ → ι → σ → Prop} {I : σ → Prop} {P : ℕ → σ → Prop}
    (h : ∀ i s, I s → ∃ t, Can step R s t ∧ I t ∧ P i t ∧ ∀ j, P j s → P j t) :
    ∀ (n : ℕ) {s : σ}, I s →
      ∃ t, Can step R s t ∧ I t ∧ (∀ i < n, P i t) ∧ ∀ j, P j s → P j t
  | 0, s, hs => ⟨s, .refl s, hs, by simp, fun _ => id⟩
  | n + 1, s, hs => by
    obtain ⟨t, hst, ht, hn, hj⟩ := can_each h n hs
    obtain ⟨u, htu, hu, hi, hj'⟩ := h n t ht
    refine ⟨u, hst.trans htu, hu, fun i hlt => ?_, fun j => hj' j ∘ hj j⟩
    rcases Nat.lt_succ_iff_lt_or_eq.1 hlt with hlt | rfl
    · exact hj' i (hn i hlt)
    · exact hi

/-! ## A history and its last entry -/

theorem concat_eq_append_cons {α : Type*} {l l₁ l₂ : List α} {x y : α}
    (h : l ++ [x] = l₁ ++ y :: l₂) :
    (l₂ = [] ∧ y = x ∧ l₁ = l) ∨ ∃ l₃, l₂ = l₃ ++ [x] ∧ l = l₁ ++ y :: l₃ := by
  rcases List.eq_nil_or_concat l₂ with rfl | ⟨l₃, z, rfl⟩
  · obtain ⟨h₁, h₂⟩ := List.append_inj' h rfl
    exact .inl ⟨rfl, by simpa using h₂.symm, h₁.symm⟩
  · refine .inr ⟨l₃, ?_⟩
    rw [List.concat_eq_append] at h ⊢
    rw [← List.cons_append, ← List.append_assoc] at h
    obtain ⟨h₁, h₂⟩ := List.append_inj' h rfl
    rw [List.cons.injEq] at h₂
    exact ⟨by rw [h₂.1], h₁⟩

theorem getLast?_filter_append {α : Type*} (p : α → Bool) (l : List α) (a : α) :
    ((l ++ [a]).filter p).getLast? = if p a then some a else (l.filter p).getLast? := by
  rw [List.filter_append]
  cases h : p a <;> simp [h]

theorem filter_append_of_neg {α : Type*} {p : α → Bool} {l m : List α}
    (h : ∀ a ∈ m, p a = false) : (l ++ m).filter p = l.filter p := by
  have hm : m.filter p = [] := List.filter_eq_nil_iff.2 (by simpa using h)
  rw [List.filter_append, hm, List.append_nil]

theorem countP_and_lt_succ {α : Type*} (p : α → Bool) (tag : α → ℕ) (n : ℕ) (l : List α) :
    l.countP (fun a => p a && tag a < n + 1)
      = l.countP (fun a => p a && tag a < n) + l.countP fun a => p a && tag a = n := by
  induction l with
  | nil => rfl
  | cons a l ih =>
    simp only [List.countP_cons, ih]
    cases p a
    · simp
    · simp only [Bool.true_and, decide_eq_true_eq]
      split_ifs <;> omega

/-- What there is no more of than of another with each tag, there is no more of in all. -/
theorem countP_le_of_tags {α : Type*} {p q : α → Bool} (tag : α → ℕ) {l : List α}
    (h : ∀ n, l.countP (fun a => p a && tag a = n) ≤ l.countP fun a => q a && tag a = n) :
    l.countP p ≤ l.countP q := by
  obtain ⟨n, hn⟩ : ∃ n, ∀ a ∈ l, tag a < n := by
    clear h
    induction l with
    | nil => exact ⟨0, by simp⟩
    | cons a l ih =>
      obtain ⟨n, hn⟩ := ih
      refine ⟨max n (tag a + 1), List.forall_mem_cons.2 ⟨by omega, fun b hb => ?_⟩⟩
      exact (hn b hb).trans_le (le_max_left _ _)
  have hlt : ∀ m, l.countP (fun a => p a && tag a < m) ≤ l.countP fun a => q a && tag a < m := by
    intro m
    induction m with
    | zero => simp
    | succ m ih =>
      rw [countP_and_lt_succ, countP_and_lt_succ]
      exact Nat.add_le_add ih (h m)
  have hall : ∀ r : α → Bool, l.countP (fun a => r a && tag a < n) = l.countP r := fun r =>
    List.countP_congr fun a ha => by simp [hn a ha]
  simpa only [hall] using hlt n

/-- The second list is the first without some of its entries, each of them one that `p` allows. -/
inductive Thinned {α : Type*} (p : α → Prop) : List α → List α → Prop
  | nil : Thinned p [] []
  | keep (a : α) {l m : List α} (h : Thinned p l m) : Thinned p (a :: l) (a :: m)
  | drop {a : α} {l m : List α} (h : Thinned p l m) (ha : p a) : Thinned p (a :: l) m

theorem Thinned.mono {α : Type*} {p q : α → Prop} (hpq : ∀ a, p a → q a) {l m : List α}
    (h : Thinned p l m) : Thinned q l m := by
  induction h with
  | nil => exact .nil
  | keep a _ ih => exact .keep a ih
  | drop _ ha ih => exact ih.drop (hpq _ ha)

theorem thinned_filter {α : Type*} (p : α → Bool) (l : List α) :
    Thinned (fun a => p a = false) l (l.filter p) := by
  induction l with
  | nil => exact .nil
  | cons a l ih =>
    cases h : p a
    · rw [List.filter_cons_of_neg (by simp [h])]
      exact ih.drop h
    · rw [List.filter_cons_of_pos h]
      exact .keep a ih

/-! ## One system seen in another -/

/-- When each step of a system is some steps of another, at the states they show, so is a run. The
invariant may help to see it. -/
theorem exec_refines {I : σ → Prop} {step' : τ → κ → Option τ} (view : σ → τ)
    (hI : ∀ s a t, I s → step s a = some t → I t)
    (hsim : ∀ s a t, I s → step s a = some t → ∃ bs, exec step' (view s) bs = some (view t)) :
    ∀ {as : List ι} {s t : σ}, I s → exec step s as = some t →
      ∃ bs, exec step' (view s) bs = some (view t)
  | [], s, t, _, h => by
    simp only [exec, Option.some.injEq] at h
    exact ⟨[], by simp [exec, h]⟩
  | a :: as, s, t, hs, h => by
    obtain ⟨u, hu, ht⟩ := exec_cons.1 h
    obtain ⟨bs, hbs⟩ := hsim s a u hs hu
    obtain ⟨cs, hcs⟩ := exec_refines view hI hsim (hI s a u hs hu) ht
    exact ⟨bs ++ cs, exec_append.2 ⟨view u, hbs, hcs⟩⟩

/-- When what each step shows is steps of another system, at the states it shows, so is what a run
shows. -/
theorem exec_trace_refines {I : σ → Prop} {step' : τ → κ → Option τ} {obs : σ → ι → σ → List κ}
    (view : σ → τ) (hI : ∀ s a t, I s → step s a = some t → I t)
    (hsim : ∀ s a t, I s → step s a = some t → exec step' (view s) (obs s a t) = some (view t)) :
    ∀ {as : List ι} {s t : σ}, I s → exec step s as = some t →
      exec step' (view s) (trace step obs s as) = some (view t)
  | [], s, t, _, h => by
    simp only [exec, Option.some.injEq] at h
    simp [trace, exec, h]
  | a :: as, s, t, hs, h => by
    obtain ⟨u, hu, ht⟩ := exec_cons.1 h
    rw [trace_cons hu]
    exact exec_append.2 ⟨view u, hsim s a u hs hu,
      exec_trace_refines view hI hsim (hI s a u hs hu) ht⟩

/-! ## A part of a system -/

section Part

variable {step' : τ → κ → Option τ} {v : σ → τ} {part : ι → Option κ}

/-- A run of a system is one of a part of it, where a step is one of the part or leaves it alone. -/
theorem exec_part (hown : ∀ s a t b, part a = some b → step s a = some t →
      step' (v s) b = some (v t))
    (hother : ∀ s a t, part a = none → step s a = some t → v t = v s) :
    ∀ {as : List ι} {s t : σ}, exec step s as = some t →
      exec step' (v s) (as.filterMap part) = some (v t)
  | [], s, t, h => by
    simp only [exec, Option.some.injEq] at h
    simp [exec, h]
  | a :: as, s, t, h => by
    obtain ⟨u, hu, ht⟩ := exec_cons.1 h
    have ih := exec_part hown hother ht
    rcases hp : part a with _ | b
    · rw [List.filterMap_cons_none hp, ← hother s a u hp hu]
      exact ih
    · rw [List.filterMap_cons_some hp]
      exact exec_cons.2 ⟨_, hown s a u b hp hu, ih⟩

/-- And it shows what the part shows, where the steps that leave the part alone show nothing. -/
theorem trace_part {o : σ → ι → σ → List ω} {o' : τ → κ → τ → List ω}
    (hown : ∀ s a t b, part a = some b → step s a = some t →
      step' (v s) b = some (v t) ∧ o s a t = o' (v s) b (v t))
    (hother : ∀ s a t, part a = none → step s a = some t → v t = v s ∧ o s a t = []) :
    ∀ {as : List ι} {s t : σ}, exec step s as = some t →
      trace step o s as = trace step' o' (v s) (as.filterMap part)
  | [], s, t, _ => rfl
  | a :: as, s, t, h => by
    obtain ⟨u, hu, ht⟩ := exec_cons.1 h
    have ih := trace_part hown hother ht
    rw [trace_cons hu, ih]
    rcases hp : part a with _ | b
    · obtain ⟨hv, ho⟩ := hother s a u hp hu
      rw [List.filterMap_cons_none hp, hv, ho, List.nil_append]
    · obtain ⟨hv, ho⟩ := hown s a u b hp hu
      rw [List.filterMap_cons_some hp, trace_cons hv, ho]

end Part

end Transition
