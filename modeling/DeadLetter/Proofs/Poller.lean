import Mathlib.Data.List.Pairwise
import DeadLetter.Poller
import DeadLetter.Proofs.Db

/-!
# What the change poller sends

A row version waits to be sent while the cursor is behind it, and is sent for good when the cursor
has gone past its millisecond. So none is missed where every write commits ahead of the cursor
(`Sees`), and none is sent again where every query finds rows ahead of the cursor's millisecond
only (`Spent`).
-/

namespace DeadLetter

open Transition

theorem toDate_mono {t u : ℤ} (h : t ≤ u) : toDate t ≤ toDate u := by
  unfold toDate
  omega

theorem toDate_le_of_le {t date : ℤ} (h : t ≤ toTimestamp date) : toDate t ≤ date := by
  unfold toTimestamp at h
  unfold toDate
  omega

/-! ## What a query reads -/

theorem mem_getJobChangesSince {jobs : Jobs} {since : ℤ} {c : JobChange} :
    c ∈ getJobChangesSince jobs since
      ↔ ∃ j ∈ jobs, toTimestamp since < j.updatedAt ∧ j.change = c := by
  simp [getJobChangesSince, Table.mem_def, and_assoc]

theorem nodup_getJobChangesSince (jobs : Jobs) (since : ℤ) :
    ((getJobChangesSince jobs since).map fun c => (c.id, c.updatedAt)).Nodup := by
  refine List.Nodup.of_map Prod.fst ?_
  rw [List.map_map]
  refine ((List.perm_insertionSort _ _).map _).nodup_iff.2 ?_
  rw [List.map_map]
  exact (List.filter_sublist.map _).nodup jobs.nodup

theorem sorted_getJobChangesSince (jobs : Jobs) (since : ℤ) :
    (getJobChangesSince jobs since).Pairwise fun a b => a.updatedAt ≤ b.updatedAt := by
  have : Std.Total fun a b : JobChange => a.updatedAt ≤ b.updatedAt :=
    ⟨fun a b => le_total a.updatedAt b.updatedAt⟩
  have : IsTrans JobChange fun a b => a.updatedAt ≤ b.updatedAt := ⟨fun _ _ _ => le_trans⟩
  exact List.pairwise_insertionSort _ _

/-- The last of rows in order is the latest. -/
theorem toDate_le_advance {changes : List JobChange} {cursor : ℤ}
    (hs : changes.Pairwise fun a b => a.updatedAt ≤ b.updatedAt) {c : JobChange}
    (hc : c ∈ changes) : toDate c.updatedAt ≤ advance cursor changes := by
  have : Std.Refl fun a b : JobChange => a.updatedAt ≤ b.updatedAt := ⟨fun a => le_refl _⟩
  have hlast := hs.rel_getLast hc
  rw [advance, List.getLast?_eq_some_getLast (List.ne_nil_of_mem hc)]
  exact toDate_mono hlast

namespace Poller

variable {s t : Poller} {i x : ℕ}

inductive PollerStep (s : Poller) : PollerAction → Poller → Prop
  | clocked {now : ℤ} : PollerStep s (.clock now) { s with now }
  | began {x : ℕ} (hx : s.writers x = none) :
      PollerStep s (.begin x) (s.setWriter x (some s.now))
  | committed {x : ℕ} {id : Uuid} {op : JobOp} {begunAt : ℤ} (hx : s.writers x = some begunAt) :
      PollerStep s (.commit x id op)
        { s.setWriter x none with jobs := (Call.run s.jobs ⟨id, begunAt, op⟩).1 }
  | rolledBack {x : ℕ} : PollerStep s (.rollback x) (s.setWriter x none)
  | started (hs : s.startup = none) :
      PollerStep s .getStartupCursor
        { s with startup := some (toDate s.now), cursor := toDate s.now }
  | ticked {i : ℕ} {startup : ℤ} (hs : s.startup = some startup) (hi : s.ticks i = none) :
      PollerStep s (.tick i) (s.setTick i (some (.sent s.cursor)))
  | queried {i : ℕ} {since : ℤ} (hi : s.ticks i = some (.sent since)) :
      PollerStep s (.query i) (s.setTick i (some (.read (getJobChangesSince s.jobs since))))
  | finished {i : ℕ} {changes : List JobChange} (hi : s.ticks i = some (.read changes)) :
      PollerStep s (.finish i) { s.setTick i none with cursor := advance s.cursor changes }
  | rejected {i : ℕ} {tick : Tick} (hi : s.ticks i = some tick) :
      PollerStep s (.rejected i) (s.setTick i none)
  | threw {i sent : ℕ} {changes : List JobChange} (hi : s.ticks i = some (.read changes)) :
      PollerStep s (.threw i sent) (s.setTick i none)

theorem step_cases {a : PollerAction} (h : s.step a = some t) : PollerStep s a t := by
  cases a with
  | clock now => exact Option.some.inj h ▸ .clocked
  | begin x =>
    simp only [step] at h
    split at h
    · rename_i hx
      exact Option.some.inj h ▸ .began hx
    · simp at h
  | commit x id op =>
    simp only [step] at h
    split at h
    · rename_i hx
      exact Option.some.inj h ▸ .committed hx
    · simp at h
  | rollback x =>
    simp only [step] at h
    split at h
    · exact Option.some.inj h ▸ .rolledBack
    · simp at h
  | getStartupCursor =>
    simp only [step] at h
    split at h
    · rename_i hs
      exact Option.some.inj h ▸ .started hs
    · simp at h
  | tick i =>
    simp only [step] at h
    split at h
    · rename_i hs hi
      exact Option.some.inj h ▸ .ticked hs hi
    · simp at h
  | query i =>
    simp only [step] at h
    split at h
    · rename_i hi
      exact Option.some.inj h ▸ .queried hi
    · simp at h
  | finish i =>
    simp only [step] at h
    split at h
    · rename_i hi
      exact Option.some.inj h ▸ .finished hi
    · simp at h
  | rejected i =>
    simp only [step] at h
    split at h
    · rename_i hi
      exact Option.some.inj h ▸ .rejected hi
    · simp at h
  | threw i sent =>
    simp only [step] at h
    split at h
    · rename_i hi
      split_ifs at h
      exact Option.some.inj h ▸ .threw hi
    · simp at h

theorem ticks_setTick (tick : Option Tick) (k : ℕ) :
    (s.setTick i tick).ticks k = if k = i then tick else s.ticks k := by
  by_cases h : k = i
  · rw [if_pos h, h]
    exact Function.update_self ..
  · rw [if_neg h]
    exact Function.update_of_ne h ..

theorem setTick_cases {tick : Option Tick} {u : Tick} {k : ℕ}
    (h : (s.setTick i tick).ticks k = some u) :
    (k = i ∧ tick = some u) ∨ k ≠ i ∧ s.ticks k = some u := by
  rw [ticks_setTick] at h
  split_ifs at h with hk
  · exact .inl ⟨hk, h⟩
  · exact .inr ⟨hk, h⟩

theorem setTick_none {u : Tick} {k : ℕ} (h : (s.setTick i none).ticks k = some u) :
    k ≠ i ∧ s.ticks k = some u :=
  (setTick_cases h).resolve_left fun hk => absurd hk.2 (by simp)

/-- A tick that goes on is none the more. -/
theorem ticks_of_setTick {tick : Tick} {tick' : Option Tick} (hi : s.ticks i = some tick) {k : ℕ}
    (hk : (s.setTick i tick').ticks k ≠ none) : s.ticks k ≠ none := by
  rw [ticks_setTick] at hk
  split_ifs at hk with h
  · rw [h, hi]
    simp
  · exact hk

/-- A commit leaves a row as it was, or gives it its transaction's `now()`. -/
theorem mem_run {c : Call} {jobs : Jobs} {j : Job} (h : j ∈ (c.run jobs).1) :
    j ∈ jobs ∨ j.updatedAt = c.now := by
  rcases hr : (c.run jobs).2 with _ | r
  · rw [Call.run_of_none hr] at h
    exact .inl h
  · obtain ⟨hw, hg⟩ := Call.writes hr
    have hj := Table.get_of_mem h
    rw [hg] at hj
    split_ifs at hj
    · exact .inr (Option.some.inj hj ▸ hw.updatedAt)
    · exact .inl (Table.mem_of_get hj)

/-- What a tick has read stays with it to its end. -/
theorem read_of_exec {changes : List JobChange} : ∀ {as : List PollerAction} {s t : Poller},
    exec step s as = some t → s.ticks i = some (.read changes) → (∀ a ∈ as, ends a ≠ some i) →
      t.ticks i = some (.read changes)
  | [], s, t, h, hi, _ => by
    simp only [exec, Option.some.injEq] at h
    exact h ▸ hi
  | a :: as, s, t, h, hi, he => by
    obtain ⟨u, hu, ht⟩ := exec_cons.1 h
    refine read_of_exec ht ?_ fun b hb => he b (List.mem_cons_of_mem _ hb)
    have ha := he a (List.mem_cons_self ..)
    have hne : ∀ {k}, (∀ c, s.ticks k = some (.read c) → False) → i ≠ k := fun hk hik =>
      hk changes (hik ▸ hi)
    cases step_cases hu with
    | ticked hs hk =>
      rw [ticks_setTick, if_neg (hne fun c hc => by simp [hc] at hk), hi]
    | queried hk =>
      rw [ticks_setTick, if_neg (hne fun c hc => by simp [hc] at hk), hi]
    | finished =>
      exact (ticks_setTick none i).trans ((if_neg fun hk => ha (congrArg some hk.symm)).trans hi)
    | rejected => rw [ticks_setTick, if_neg fun hk => ha (congrArg some hk.symm), hi]
    | threw => rw [ticks_setTick, if_neg fun hk => ha (congrArg some hk.symm), hi]
    | _ => exact hi

/-! ## Missing nothing -/

/-- The next query finds row `j`, whichever tick it is of. -/
def Awaits (s : Poller) (j : Job) : Prop :=
  toTimestamp s.cursor < j.updatedAt ∧ ∀ i changes, s.ticks i = some (.read changes) →
    j.change ∈ changes ∨ toTimestamp (advance s.cursor changes) < j.updatedAt

/-- Rows later than the startup cursor have been broadcast or are to be. -/
structure Sees (l : List JobChange) (s : Poller) : Prop where
  idle : s.startup = none → ∀ i, s.ticks i = none
  one : ∀ i k, s.ticks i ≠ none → s.ticks k ≠ none → i = k
  sent : ∀ i since, s.ticks i = some (.sent since) → since = s.cursor
  row : ∀ startup ∈ s.startup, ∀ j ∈ s.jobs, toTimestamp startup < j.updatedAt →
    j.change ∈ l ∨ s.Awaits j

/-- A tick that ends leaves no other. -/
theorem Sees.none_left {l : List JobChange} (hI : Sees l s) {tick : Tick}
    (hi : s.ticks i = some tick) (k : ℕ) : (s.setTick i none).ticks k = none := by
  rw [ticks_setTick]
  split_ifs with hk
  · rfl
  · by_contra hn
    exact hk (hI.one k i hn (by simp [hi]))

theorem Sees.append {l : List JobChange} (hI : Sees l s) (l' : List JobChange) :
    Sees (l ++ l') s :=
  ⟨hI.idle, hI.one, hI.sent, fun startup hs j hj hlt =>
    (hI.row startup hs j hj hlt).imp_left (List.mem_append_left _)⟩

/-- A tick ends having broadcast `l'`, and the cursor goes past no row that awaits and is not of
them. -/
theorem Sees.end_tick {l l' : List JobChange} {cursor : ℤ} (hI : Sees l s) {tick : Tick}
    (hi : s.ticks i = some tick)
    (hrow : ∀ j, s.Awaits j → j.change ∈ l' ∨ toTimestamp cursor < j.updatedAt) :
    Sees (l ++ l') { s.setTick i none with cursor } := by
  have hnone := hI.none_left hi
  have hno : ∀ {k tick}, (s.setTick i none).ticks k ≠ some tick := fun h =>
    absurd ((hnone _).symm.trans h) (by simp)
  refine ⟨fun _ => hnone, fun k _ hk => absurd (hnone k) hk, fun k since hk => absurd hk hno,
    fun startup hs j hj hlt => ?_⟩
  rcases hI.row startup hs j hj hlt with hl | ha
  · exact .inl (List.mem_append_left _ hl)
  · rcases hrow j ha with hl | hlt
    · exact .inl (List.mem_append_right _ hl)
    · exact .inr ⟨hlt, fun k changes hk => absurd hk hno⟩

theorem Sees.step {l : List JobChange} {a : PollerAction} (hI : Sees l s)
    (ho : OneAtATime s a t) (hb : BeforePolls s a t) (h : s.step a = some t) :
    Sees (l ++ s.broadcasts a t) t := by
  cases step_cases h with
  | @committed x id op begunAt hx =>
    refine Sees.append ?_ _
    refine ⟨hI.idle, hI.one, hI.sent, fun startup hs j hj hlt => ?_⟩
    rcases mem_run hj with hj | hj
    · exact hI.row startup hs j hj hlt
    · replace hj : j.updatedAt = begunAt := hj
      rw [hj] at hlt
      obtain ⟨hc, hr⟩ := hb begunAt hx startup hs hlt
      exact .inr ⟨hj ▸ hc, fun k changes hk => .inr (hj ▸ hr k changes hk)⟩
  | started hs =>
    have hno : ∀ {k tick}, s.ticks k ≠ some tick := fun h =>
      absurd ((hI.idle hs _).symm.trans h) (by simp)
    refine Sees.append ?_ _
    refine ⟨fun _ => hI.idle hs, hI.one, fun k since hk => absurd hk hno,
      fun startup hs j _ hlt => .inr ⟨?_, fun k changes hk => absurd hk hno⟩⟩
    obtain rfl := Option.some.inj hs
    exact hlt
  | @ticked i startup hs hi =>
    refine Sees.append ?_ _
    have hnone : ∀ k, s.ticks k = none := ho
    have hall : ∀ {k tick}, (s.setTick i (some (.sent s.cursor))).ticks k = some tick →
        k = i ∧ .sent s.cursor = tick := fun {k tick} hk =>
      (setTick_cases hk).elim (fun h => ⟨h.1, Option.some.inj h.2⟩)
        fun h => absurd ((hnone k).symm.trans h.2) (by simp)
    refine ⟨fun hn => absurd (hs.symm.trans hn) (by simp), fun k m hk hm => ?_,
      fun k since hk => ?_,
      fun startup hs j hj hlt => (hI.row startup hs j hj hlt).imp_right fun ha =>
        ⟨ha.1, fun k changes hk => absurd (hall hk).2 (by simp)⟩⟩
    · obtain ⟨_, hk⟩ := Option.ne_none_iff_exists'.1 hk
      obtain ⟨_, hm⟩ := Option.ne_none_iff_exists'.1 hm
      rw [(hall hk).1, (hall hm).1]
    · exact (Tick.sent.inj (hall hk).2).symm
  | @queried i since hi =>
    refine Sees.append ?_ _
    refine ⟨fun hn => absurd (hI.idle hn i) (by simp [hi]), fun k m hk hm => ?_,
      fun k since hk => ?_,
      fun startup hs j hj hlt => (hI.row startup hs j hj hlt).imp_right fun ha =>
        ⟨ha.1, fun k changes hk => ?_⟩⟩
    · exact hI.one k m (ticks_of_setTick hi hk) (ticks_of_setTick hi hm)
    · rcases setTick_cases hk with ⟨-, hk⟩ | ⟨-, hk⟩
      · simp at hk
      · exact hI.sent k since hk
    · rcases setTick_cases hk with ⟨-, hk⟩ | ⟨-, hk⟩
      · obtain rfl := Tick.read.inj (Option.some.inj hk)
        have hlt := ha.1
        rw [← hI.sent i since hi] at hlt
        exact .inl (mem_getJobChangesSince.2 ⟨j, hj, hlt, rfl⟩)
      · exact ha.2 k changes hk
  | @finished i changes hi =>
    rw [show s.broadcasts (.finish i) _ = changes by simp [broadcasts, hi]]
    exact hI.end_tick hi fun j ha => ha.2 i changes hi
  | rejected hi => exact hI.end_tick hi fun j ha => .inr ha.1
  | threw hi => exact hI.end_tick hi fun j ha => .inr ha.1
  | _ =>
    refine Sees.append ?_ _
    exact ⟨hI.idle, hI.one, hI.sent, hI.row⟩

theorem sees_init : Sees [] init :=
  ⟨fun _ _ => rfl, fun _ _ h => absurd rfl h, fun _ _ h => by simp [init] at h,
    fun _ h => by simp [init] at h⟩

theorem sees_of_exec {as : List PollerAction} (h : exec step init as = some s)
    (ho : Steps step OneAtATime init as) (hb : Steps step BeforePolls init as) :
    Sees (trace step broadcasts init as) s :=
  exec_trace_inv_of_steps (fun _ _ _ _ hI hR h => hI.step hR.1 hR.2 h) sees_init (ho.and hb) h

/-- A tick broadcasts what its query read. -/
theorem broadcast_of_finish {l₁ l₂ : List PollerAction} {since : ℤ}
    (h₁ : exec step init l₁ = some s) (hi : s.ticks i = some (.sent since))
    (he : ∀ a ∈ l₂, ends a ≠ some i)
    (h : exec step init (l₁ ++ .query i :: (l₂ ++ [.finish i])) = some t) {c : JobChange}
    (hc : c ∈ getJobChangesSince s.jobs since) :
    c ∈ trace step broadcasts init (l₁ ++ .query i :: (l₂ ++ [.finish i])) := by
  rw [show l₁ ++ .query i :: (l₂ ++ [.finish i]) = (l₁ ++ .query i :: l₂) ++ [.finish i] by simp]
    at h ⊢
  obtain ⟨v, hv, ht⟩ := exec_append.1 h
  obtain ⟨s', h₁', hs'⟩ := exec_append.1 hv
  obtain rfl := Option.some.inj (h₁.symm.trans h₁')
  obtain ⟨u, hu, huv⟩ := exec_cons.1 hs'
  have hui : u.ticks i = some (.read (getJobChangesSince s.jobs since)) := by
    simp only [step, hi, Option.some.injEq] at hu
    rw [← hu, ticks_setTick, if_pos rfl]
  refine mem_trace hv (exec_singleton.1 ht) ?_
  simpa only [broadcasts, read_of_exec huv hui he] using hc

/-- No poll misses a write, where ticks do not overlap and every write commits before a poll has
gone past its `now()`. -/
theorem misses_none {as : List PollerAction} (ho : Steps step OneAtATime init as)
    (hb : Steps step BeforePolls init as) : MissesNone as := by
  rintro l₁ i l₂ l₃ s t rfl he h₁ - h j hj startup hs hlt
  have hI := sees_of_exec h₁ ho.left hb.left
  rcases hI.row startup hs j hj hlt with hl | ha
  · rw [trace_append h₁]
    exact List.mem_append_left _ hl
  · obtain ⟨s', h₁', hs'⟩ := exec_append.1 h
    obtain rfl := Option.some.inj (h₁.symm.trans h₁')
    obtain ⟨u, hu, -⟩ := exec_cons.1 hs'
    cases step_cases hu with
    | @queried _ since hi =>
      refine broadcast_of_finish h₁ hi he h (mem_getJobChangesSince.2 ⟨j, hj, ?_, rfl⟩)
      rw [hI.sent i since hi]
      exact ha.1

/-! ## Repeating nothing -/

def version (c : JobChange) : Uuid × ℤ := (c.id, c.updatedAt)

/-- What has been broadcast is of the cursor's millisecond or earlier, and what a tick is to
broadcast is later; one tick at most has any. -/
structure Spent (l : List JobChange) (s : Poller) : Prop where
  idle : s.startup = none → l = [] ∧ ∀ i, s.ticks i = none
  nodup : (l.map version).Nodup
  past : ∀ c ∈ l, toDate c.updatedAt ≤ s.cursor
  sent : ∀ i since, s.ticks i = some (.sent since) → since ≤ s.cursor
  ahead : ∀ i changes, s.ticks i = some (.read changes) →
    ∀ c ∈ changes, s.cursor < toDate c.updatedAt
  rows : ∀ i changes, s.ticks i = some (.read changes) → (changes.map version).Nodup
    ∧ changes.Pairwise fun a b => a.updatedAt ≤ b.updatedAt
  one : ∀ i k c d, s.ticks i = some (.read c) → s.ticks k = some (.read d) → c ≠ [] → d ≠ [] →
    i = k

theorem Spent.cursor_le {l : List JobChange} (hI : Spent l s) {changes : List JobChange}
    (hi : s.ticks i = some (.read changes)) : s.cursor ≤ advance s.cursor changes := by
  rcases List.eq_nil_or_concat changes with rfl | ⟨cs, c, rfl⟩
  · exact le_rfl
  · have hc : c ∈ cs.concat c := by simp
    exact (hI.ahead i _ hi c hc).le.trans (toDate_le_advance (hI.rows i _ hi).2 hc)

theorem Spent.finish {l changes : List JobChange} (hI : Spent l s)
    (hi : s.ticks i = some (.read changes)) :
    Spent (l ++ changes) { s.setTick i none with cursor := advance s.cursor changes } := by
  have hle := hI.cursor_le hi
  obtain ⟨hn, hs⟩ := hI.rows i changes hi
  -- another tick has no rows to broadcast, where this one has
  have hempty : ∀ {k d}, (s.setTick i none).ticks k = some (.read d) → changes = [] ∨ d = [] :=
    fun {k d} hk => by
      by_contra hne
      rw [not_or] at hne
      obtain ⟨hki, hk⟩ := setTick_none hk
      exact hki (hI.one k i d changes hk hi hne.2 hne.1)
  refine ⟨fun h => absurd ((hI.idle h).2 i) (by simp [hi]), ?_, fun c hc => ?_,
    fun k since hk => ?_, fun k d hk c hc => ?_, fun k d hk => hI.rows k d (setTick_none hk).2,
    fun k m c d hk hm => hI.one k m c d (setTick_none hk).2 (setTick_none hm).2⟩
  · rw [List.map_append]
    refine hI.nodup.append hn fun v hl hv => ?_
    obtain ⟨c, hc, rfl⟩ := List.mem_map.1 hv
    obtain ⟨b, hb, hbc⟩ := List.mem_map.1 hl
    replace hb := hI.past b hb
    replace hc := hI.ahead i changes hi c hc
    rw [show b.updatedAt = c.updatedAt from congrArg Prod.snd hbc] at hb
    exact absurd hb (by omega)
  · rcases List.mem_append.1 hc with hc | hc
    · exact (hI.past c hc).trans hle
    · exact toDate_le_advance hs hc
  · exact (hI.sent k since (setTick_none hk).2).trans hle
  · rcases hempty hk with rfl | rfl
    · exact hI.ahead k d (setTick_none hk).2 c hc
    · simp at hc

theorem Spent.step {l : List JobChange} {a : PollerAction} (hI : Spent l s)
    (hn : throws a = false) (hf : Afresh s a t) (h : s.step a = some t) :
    Spent (l ++ s.broadcasts a t) t := by
  cases step_cases h with
  | started hs =>
    obtain ⟨rfl, hnone⟩ := hI.idle hs
    have hno : ∀ {k tick}, s.ticks k ≠ some tick := fun h =>
      absurd ((hnone _).symm.trans h) (by simp)
    exact ⟨fun h => absurd h (by simp), List.nodup_nil,
      fun c hc => absurd hc (by simp [broadcasts]), fun k since hk => absurd hk hno,
      fun k d hk => absurd hk hno, fun k d hk => absurd hk hno,
      fun k m c d hk => absurd hk hno⟩
  | @ticked i startup hs hi =>
    rw [show s.broadcasts _ _ = [] from rfl, List.append_nil]
    have hread : ∀ {k changes},
        (s.setTick i (some (.sent s.cursor))).ticks k = some (.read changes) →
          s.ticks k = some (.read changes) := fun hk =>
      (setTick_cases hk).elim (fun h => absurd h.2 (by simp)) (·.2)
    refine ⟨fun h => absurd (hs.symm.trans h) (by simp), hI.nodup, hI.past, fun k since hk => ?_,
      fun k d hk => hI.ahead k d (hread hk), fun k d hk => hI.rows k d (hread hk),
      fun k m c d hk hm => hI.one k m c d (hread hk) (hread hm)⟩
    rcases setTick_cases hk with ⟨-, hk⟩ | ⟨-, hk⟩
    · exact (Tick.sent.inj (Option.some.inj hk)).ge
    · exact hI.sent k since hk
  | @queried i since hi =>
    rw [show s.broadcasts _ _ = [] from rfl, List.append_nil]
    obtain ⟨hother, hlater⟩ := hf
    refine ⟨fun h => absurd ((hI.idle h).2 i) (by simp [hi]), hI.nodup, hI.past, fun k u hk => ?_,
      fun k d hk c hc => ?_, fun k d hk => ?_, fun k m c d hk hm hc hd => ?_⟩
    · rcases setTick_cases hk with ⟨-, hk⟩ | ⟨-, hk⟩
      · simp at hk
      · exact hI.sent k u hk
    · rcases setTick_cases hk with ⟨-, hk⟩ | ⟨-, hk⟩
      · obtain rfl := Tick.read.inj (Option.some.inj hk)
        obtain ⟨j, hj, hlt, rfl⟩ := mem_getJobChangesSince.1 hc
        exact hlater since hi j hj hlt
      · exact hI.ahead k d hk c hc
    · rcases setTick_cases hk with ⟨-, hk⟩ | ⟨-, hk⟩
      · obtain rfl := Tick.read.inj (Option.some.inj hk)
        exact ⟨nodup_getJobChangesSince _ _, sorted_getJobChangesSince _ _⟩
      · exact hI.rows k d hk
    · rcases setTick_cases hk with ⟨rfl, -⟩ | ⟨-, hk⟩
      · rcases setTick_cases hm with ⟨rfl, -⟩ | ⟨-, hm⟩
        · rfl
        · exact absurd (hother m d hm) hd
      · exact absurd (hother k c hk) hc
  | @finished i changes hi =>
    rw [show s.broadcasts (.finish i) _ = changes by simp [broadcasts, hi]]
    exact hI.finish hi
  | @rejected i tick hi =>
    rw [show s.broadcasts _ _ = [] from rfl, List.append_nil]
    exact ⟨fun h => absurd ((hI.idle h).2 i) (by simp [hi]), hI.nodup, hI.past,
      fun k since hk => hI.sent k since (setTick_none hk).2,
      fun k d hk => hI.ahead k d (setTick_none hk).2, fun k d hk => hI.rows k d (setTick_none hk).2,
      fun k m c d hk hm => hI.one k m c d (setTick_none hk).2 (setTick_none hm).2⟩
  | threw => simp [throws] at hn
  | _ =>
    rw [show s.broadcasts _ _ = [] from rfl, List.append_nil]
    exact ⟨hI.idle, hI.nodup, hI.past, hI.sent, hI.ahead, hI.rows, hI.one⟩

theorem spent_init : Spent [] init :=
  ⟨fun _ => ⟨rfl, fun _ => rfl⟩, List.nodup_nil, fun _ h => by simp at h,
    fun _ _ h => by simp [init] at h, fun _ _ h => by simp [init] at h,
    fun _ _ h => by simp [init] at h,
    fun _ _ _ _ h => by simp [init] at h⟩

theorem spent_of_exec {as : List PollerAction} (h : exec step init as = some s)
    (hn : ∀ a ∈ as, throws a = false) (hf : Steps step Afresh init as) :
    Spent (trace step broadcasts init as) s :=
  exec_trace_inv_of_steps (fun _ _ _ _ hI hR h => hI.step hR.1 hR.2 h) spent_init
    ((steps_of_forall hn).and hf) h

/-! ### Once writes stop -/

/-- The cursor has gone past every row but those that the ticks of `p` are to broadcast, and no
other tick has any. -/
structure Settling (p : ℕ → Prop) (s : Poller) : Prop where
  started : s.startup ≠ none
  row : ∀ j ∈ s.jobs, toDate j.updatedAt ≤ s.cursor
    ∨ ∃ i changes, p i ∧ s.ticks i = some (.read changes) ∧ j.change ∈ changes
  other : ∀ k changes, ¬ p k → s.ticks k = some (.read changes) → changes = []

theorem Settling.drop {p : ℕ → Prop} (hs : Settling p s) (hp : ¬ p i) :
    Settling p (s.setTick i none) := by
  refine ⟨hs.started, fun j hj => (hs.row j hj).imp_right ?_,
    fun k changes hk ht => hs.other k changes hk (setTick_none ht).2⟩
  rintro ⟨k, changes, hk, ht, hm⟩
  refine ⟨k, changes, hk, ?_, hm⟩
  rw [ticks_setTick, if_neg, ht]
  rintro rfl
  exact hp hk

theorem Settling.step {p : ℕ → Prop} {a : PollerAction} (hs : Settling p s) (hf : Afresh s a t)
    (hc : commits a = false) (he : ∀ i, p i → ends a ≠ some i) (h : s.step a = some t) :
    Settling p t ∧ s.broadcasts a t = [] := by
  cases step_cases h with
  | committed => simp [commits] at hc
  | started hn => exact absurd hn hs.started
  | @ticked i startup _ hi =>
    refine ⟨⟨hs.started, fun j hj => (hs.row j hj).imp_right ?_, fun k changes hk ht => ?_⟩, rfl⟩
    · rintro ⟨k, changes, hk, ht, hm⟩
      refine ⟨k, changes, hk, ?_, hm⟩
      rw [ticks_setTick, if_neg, ht]
      rintro rfl
      simp [hi] at ht
    · rcases setTick_cases ht with ⟨-, ht⟩ | ⟨-, ht⟩
      · simp at ht
      · exact hs.other k changes hk ht
  | @queried i since hi =>
    obtain ⟨hother, hlater⟩ := hf
    have hrow : ∀ j ∈ s.jobs, toDate j.updatedAt ≤ s.cursor := fun j hj =>
      (hs.row j hj).resolve_right fun ⟨k, changes, _, ht, hm⟩ => by
        rw [hother k changes ht] at hm
        simp at hm
    refine ⟨⟨hs.started, fun j hj => .inl (hrow j hj), fun k changes hk ht => ?_⟩, rfl⟩
    rcases setTick_cases ht with ⟨-, ht⟩ | ⟨-, ht⟩
    · obtain rfl := Tick.read.inj (Option.some.inj ht)
      refine List.eq_nil_iff_forall_not_mem.2 fun c hc => ?_
      obtain ⟨j, hj, hlt, rfl⟩ := mem_getJobChangesSince.1 hc
      exact absurd (hrow j hj) (hlater since hi j hj hlt).not_ge
    · exact hother k changes ht
  | @finished i changes hi =>
    have hp : ¬ p i := fun hp => he i hp rfl
    obtain rfl := hs.other i changes hp hi
    exact ⟨hs.drop hp, by simp [broadcasts, hi]⟩
  | @rejected i => exact ⟨hs.drop fun hp => he i hp rfl, rfl⟩
  | @threw i sent changes hi =>
    have hp : ¬ p i := fun hp => he i hp rfl
    obtain rfl := hs.other i changes hp hi
    exact ⟨hs.drop hp, by simp [broadcasts, hi]⟩
  | _ => exact ⟨⟨hs.started, hs.row, hs.other⟩, rfl⟩

theorem settling_of_query {l : List JobChange} (hI : Spent l s) (hf : Afresh s (.query i) t)
    (h : s.step (.query i) = some t) : Settling (· = i) t := by
  cases step_cases h with
  | @queried _ since hi =>
    refine ⟨fun hn => absurd ((hI.idle hn).2 i) (by simp [hi]), fun j hj => ?_,
      fun k changes hk ht => ?_⟩
    · replace hj : j ∈ s.jobs := hj
      by_cases hlt : toTimestamp since < j.updatedAt
      · refine .inr ⟨i, _, rfl, ?_, mem_getJobChangesSince.2 ⟨j, hj, hlt, rfl⟩⟩
        rw [ticks_setTick, if_pos rfl]
      · exact .inl ((toDate_le_of_le (not_lt.1 hlt)).trans (hI.sent i since hi))
    · exact hf.1 k changes ((setTick_cases ht).resolve_left fun hki => hk hki.1).2

theorem Settling.finish {l : List JobChange} (hs : Settling (· = i) s) (hI : Spent l s)
    (h : s.step (.finish i) = some t) : Settling (fun _ => False) t := by
  cases step_cases h with
  | @finished _ changes hi =>
    refine ⟨hs.started, fun j hj => .inl ?_, fun k d _ hk => ?_⟩
    · rcases hs.row j hj with hle | ⟨k, d, rfl, hk, hm⟩
      · exact hle.trans (hI.cursor_le hi)
      · obtain rfl := Tick.read.inj (Option.some.inj (hi.symm.trans hk))
        exact toDate_le_advance (c := j.change) (hI.rows k changes hi).2 hm
    · exact hs.other k d (setTick_none hk).1 (setTick_none hk).2

/-- With no commit, nothing more is broadcast than those ticks have. -/
theorem settling_of_exec {p : ℕ → Prop} : ∀ {as : List PollerAction} {s t : Poller},
    exec step s as = some t → Settling p s → Steps step Afresh s as →
      (∀ a ∈ as, commits a = false) → (∀ a ∈ as, ∀ i, p i → ends a ≠ some i) →
        Settling p t ∧ trace step broadcasts s as = []
  | [], s, t, h, hs, _, _, _ => by
    simp only [exec, Option.some.injEq] at h
    exact ⟨h ▸ hs, rfl⟩
  | a :: as, s, t, h, hs, hf, hc, he => by
    obtain ⟨u, hu, ht⟩ := exec_cons.1 h
    obtain ⟨hfa, hf⟩ := steps_cons.1 hf u hu
    obtain ⟨hs, hb⟩ := hs.step hfa (hc a (List.mem_cons_self ..)) (he a (List.mem_cons_self ..)) hu
    obtain ⟨hs, htr⟩ := settling_of_exec ht hs hf (fun b hb => hc b (List.mem_cons_of_mem _ hb))
      (fun b hb => he b (List.mem_cons_of_mem _ hb))
    exact ⟨hs, by rw [trace_cons hu, hb, htr]; rfl⟩

/-- Where no broadcast throws, and every query runs with no rows left to another tick and finds
only rows of later milliseconds than the cursor's, no row version is broadcast twice. -/
theorem repeats_none {as : List PollerAction} (h : exec step init as = some t)
    (hn : ∀ a ∈ as, throws a = false) (hf : Steps step Afresh init as) : RepeatsNone as := by
  refine ⟨(spent_of_exec h hn hf).nodup, ?_⟩
  rintro l₁ i l₂ l₃ s rfl he hc hs
  have hsplit : l₁ ++ .query i :: (l₂ ++ .finish i :: l₃)
      = (l₁ ++ .query i :: (l₂ ++ [.finish i])) ++ l₃ := by simp
  rw [hsplit] at h hf hn
  obtain ⟨s', hs', ht⟩ := exec_append.1 h
  obtain rfl := Option.some.inj (hs.symm.trans hs')
  -- the query leaves the tick the only one with rows, and its end leaves none
  obtain ⟨r, hr, hrs⟩ := exec_append.1 hs
  obtain ⟨u, hu, hus⟩ := exec_cons.1 hrs
  obtain ⟨v, hv, hvs⟩ := exec_append.1 hus
  have hf₁ := hf.left.right hr
  have hfu := (steps_cons.1 hf₁ u hu).2
  have hquery := settling_of_query (spent_of_exec hr (fun a ha => hn a (by simp [ha])) hf.left.left)
    (steps_cons.1 hf₁ u hu).1 hu
  obtain ⟨hlast, -⟩ := settling_of_exec hv hquery hfu.left
    (fun a ha => hc a (List.mem_append_left _ ha)) fun a ha k hk => hk ▸ he a ha
  have hvI : Spent (trace step broadcasts init (l₁ ++ .query i :: l₂)) v := by
    have hpre : l₁ ++ .query i :: (l₂ ++ [.finish i]) = (l₁ ++ .query i :: l₂) ++ [.finish i] := by
      simp
    refine spent_of_exec (exec_append.2 ⟨r, hr, exec_cons.2 ⟨u, hu, hv⟩⟩) (fun a ha => ?_) ?_
    · exact hn a (List.mem_append_left _ (hpre ▸ List.mem_append_left _ ha))
    · exact (hpre ▸ hf.left).left
  exact (settling_of_exec ht (hlast.finish hvI (exec_singleton.1 hvs)) (hf.right hs)
    (fun a ha => hc a (List.mem_append_right _ ha)) fun a _ k hk => hk.elim).2

/-! ## Runs of one tick after another -/

def tickOf : PollerAction → Option ℕ
  | .tick i | .query i | .finish i | .rejected i | .threw i _ => some i
  | _ => none

theorem ticks_of_step {a : PollerAction} (h : s.step a = some t) (hi : tickOf a ≠ some i) :
    t.ticks i = s.ticks i := by
  have hne : ∀ {k}, tickOf a = some k → i ≠ k := fun hk hik => hi (hik ▸ hk)
  cases step_cases h with
  | ticked => exact Function.update_of_ne (hne rfl) ..
  | queried => exact Function.update_of_ne (hne rfl) ..
  | finished => exact Function.update_of_ne (hne rfl) ..
  | rejected => exact Function.update_of_ne (hne rfl) ..
  | threw => exact Function.update_of_ne (hne rfl) ..
  | _ => rfl

/-- What a step asks of all ticks, it asks of tick 0 where no other ever runs. -/
theorem steps_of_alone {R : Poller → PollerAction → Poller → Prop}
    {q : Poller → PollerAction → Bool} {as : List PollerAction}
    (hq : ∀ s a t, (∀ i, i ≠ 0 → s.ticks i = none) → q s a = true → R s a t)
    (ha : ∀ a ∈ as, ∀ i ∈ tickOf a, i = 0)
    (h : Steps step (fun s a _ => q s a = true) init as) : Steps step R init as := by
  refine steps_iff.2 fun bs a cs has t u ht hu => ?_
  refine hq t a u (fun i hi => ?_) (steps_iff.1 h bs a cs has t u ht hu)
  have hR : Steps step (fun s a t => t.ticks i = s.ticks i) init bs :=
    steps_iff.2 fun bs' b cs' hbs v w _ hw => ticks_of_step hw fun hb =>
      hi (ha b (by simp [has, hbs]) i hb)
  exact exec_inv_of_steps (I := fun s => s.ticks i = none) (fun _ _ _ hs h _ => h.trans hs) rfl
    hR ht

def ticksAlone (s : Poller) : PollerAction → Bool
  | .tick _ => s.ticks 0 = none
  | _ => true

theorem oneAtATime_of_alone {a : PollerAction} (h0 : ∀ i, i ≠ 0 → s.ticks i = none)
    (h : s.ticksAlone a = true) : OneAtATime s a t := by
  cases a with
  | tick =>
    intro i
    by_cases hi : i = 0
    · simpa [ticksAlone, hi] using h
    · exact h0 i hi
  | _ => trivial

def commitsAlone (s : Poller) : PollerAction → Bool
  | .commit x _ _ => s.ticks 0 = none
      && (s.writers x).all fun begunAt => toTimestamp s.cursor < begunAt
  | _ => true

theorem beforePolls_of_alone {a : PollerAction} (h0 : ∀ i, i ≠ 0 → s.ticks i = none)
    (h : s.commitsAlone a = true) : BeforePolls s a t := by
  cases a with
  | commit x id op =>
    intro begunAt hx startup _ _
    rw [Option.mem_def] at hx
    simp only [commitsAlone, hx, Option.all_some, Bool.and_eq_true, decide_eq_true_eq] at h
    refine ⟨h.2, fun i changes hi => ?_⟩
    by_cases hi0 : i = 0
    · rw [hi0, h.1] at hi
      simp at hi
    · rw [h0 i hi0] at hi
      simp at hi
  | _ => trivial

def queriesAlone (s : Poller) : PollerAction → Bool
  | .query i => i = 0 && s.ticks 0 = some (.sent s.cursor)
      && s.jobs.rows.all fun j => toTimestamp s.cursor < j.updatedAt → s.cursor < toDate j.updatedAt
  | _ => true

theorem afresh_of_alone {a : PollerAction} (h0 : ∀ i, i ≠ 0 → s.ticks i = none)
    (h : s.queriesAlone a = true) : Afresh s a t := by
  cases a with
  | query i =>
    simp only [queriesAlone, Bool.and_eq_true, decide_eq_true_eq, List.all_eq_true] at h
    obtain ⟨⟨rfl, hi⟩, hrows⟩ := h
    refine ⟨fun k changes hk => ?_, fun since hs j hj hlt => ?_⟩
    · by_cases hk0 : k = 0
      · rw [hk0, hi] at hk
        simp at hk
      · rw [h0 k hk0] at hk
        simp at hk
    · obtain rfl := Tick.sent.inj (Option.some.inj (hi.symm.trans hs))
      exact hrows j hj hlt
  | _ => trivial

/-- Two jobs are created by transactions that overlap, and one is claimed. -/
def polledInTurn : List PollerAction :=
  [.getStartupCursor, .clock (seconds 1), .begin 0, .begin 1, .clock (seconds 2),
    .commit 1 2 (.createJob "email" []), .commit 0 1 (.createJob "email" []), .tick 0, .query 0,
    .finish 0, .begin 0, .commit 0 1 .claimJob, .tick 0, .query 0, .finish 0, .tick 0, .query 0,
    .finish 0]

theorem misses_none_polledInTurn : (∃ s, exec step init polledInTurn = some s)
    ∧ MissesNone polledInTurn :=
  ⟨⟨_, rfl⟩, misses_none
    (steps_of_alone (fun _ _ _ => oneAtATime_of_alone) (by decide) (by decide))
    (steps_of_alone (fun _ _ _ => beforePolls_of_alone) (by decide) (by decide))⟩

theorem repeats_none_polledInTurn : ∃ s, exec step init polledInTurn = some s
    ∧ trace step broadcasts init polledInTurn
      = [⟨2, .queued, seconds 1⟩, ⟨1, .queued, seconds 1⟩, ⟨1, .processing, seconds 2⟩]
    ∧ RepeatsNone polledInTurn :=
  ⟨_, rfl, by decide, @repeats_none _ polledInTurn rfl (by decide)
    (steps_of_alone (fun _ _ _ => afresh_of_alone) (by decide) (by decide))⟩

/-- A job is created by a transaction that lasts while a later one commits and is polled. -/
def lateCommit : List PollerAction :=
  [.getStartupCursor, .clock (seconds 1), .begin 0, .clock (seconds 2), .begin 1,
    .commit 1 2 (.createJob "email" []), .tick 0, .query 0, .finish 0,
    .commit 0 1 (.createJob "email" []), .tick 0, .query 0, .finish 0]

theorem lateCommit_missed : Steps step OneAtATime init lateCommit ∧ ¬ MissesNone lateCommit := by
  refine ⟨steps_of_alone (fun _ _ _ => oneAtATime_of_alone) (by decide) (by decide), fun h => ?_⟩
  have hw : ∀ x, Function.update (Function.update (Function.update (Function.update
      (fun _ => none) 0 (some (seconds 1))) 1 (some (seconds 2))) 1 none) 0 none x
        = (none : Option ℤ) := by
    intro x
    simp only [Function.update_apply]
    split_ifs <;> rfl
  have := h (lateCommit.take 11) 0 [] [] _ _ rfl (by simp) rfl hw rfl
    (newJob (seconds 1) 1 "email" []) (Table.mem_of_get (k := 1) rfl) 0 rfl (by decide)
  exact absurd this (by decide)

/-- One write, and the ticks after it. -/
def polledTwice : List PollerAction :=
  [.getStartupCursor, .clock 1000500, .begin 0, .commit 0 1 (.createJob "email" []), .tick 0,
    .query 0, .finish 0, .tick 0, .query 0, .finish 0]

theorem polledTwice_repeats : trace step broadcasts init polledTwice
      = [⟨1, .queued, 1000500⟩, ⟨1, .queued, 1000500⟩]
    ∧ ¬ RepeatsNone polledTwice := by
  have htr : trace step broadcasts init polledTwice
      = [⟨1, .queued, 1000500⟩, ⟨1, .queued, 1000500⟩] := by decide
  refine ⟨htr, fun h => ?_⟩
  have := h.1
  rw [htr] at this
  exact absurd this (by decide)

end Poller

end DeadLetter
