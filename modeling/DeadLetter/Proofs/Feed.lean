import DeadLetter.Feed
import DeadLetter.Proofs.JobEvents
import DeadLetter.Proofs.Poller

/-!
# What the dashboards are told

What a connection has brought, with what is yet to come in on it, is what was broadcast while it was
open. The page reads from each frame the event that was written, so that its last event is the last
it was brought.
-/

namespace DeadLetter

open Transition

theorem JobStatus.text_lt (st : JobStatus) : ∀ u ∈ st.text, u < 0x10000 := by
  rcases st <;> decide

theorem JobUpdatedEvent.valid (x : EventText) (e : JobUpdatedEvent) : (e.json x).Valid :=
  have htype : ∀ u ∈ JobEvents.jobUpdated, u < 0x10000 := by decide
  ⟨by decide, htype, by decide, x.uuid_lt _, by decide, e.status.text_lt, by decide, x.date_lt _,
    trivial⟩

/-- The page takes the event that was written. -/
theorem JobEvents.onmessage_payload (s : JobEvents) (x : EventText) (e : JobUpdatedEvent) :
    s.onmessage (e.payload x) = { s with lastEvent := some (e.json x) } := by
  rw [onmessage, JobUpdatedEvent.payload, Json.parse_stringify (e.valid x)]
  rfl

namespace JobEvents

theorem lastEvent_connect (s : JobEvents) : s.connect.1.lastEvent = s.lastEvent := by
  unfold connect
  split <;> rfl

theorem lastEvent_closeWs (s : JobEvents) : s.closeWs.lastEvent = s.lastEvent := by
  rw [closeWs_eq]

theorem lastEvent_onclose (s : JobEvents) : s.onclose.1.lastEvent = s.lastEvent := by
  unfold onclose
  dsimp only
  split <;> rfl

theorem lastEvent_cleanup (s : JobEvents) : s.cleanup.1.lastEvent = s.lastEvent := by
  unfold cleanup
  rw [lastEvent_closeWs]
  dsimp only
  split <;> rfl

/-- Only a message changes the last event. -/
theorem lastEvent_of_step {s t : JobEvents} {a : JobEventsAction} (h : s.step a = some t)
    (ha : isMessage a = false) : t.lastEvent = s.lastEvent := by
  obtain ⟨r, hr, rfl⟩ := Option.map_eq_some_iff.1 h
  rcases a with i | ⟨i, data⟩ | i | i | id | _ <;> simp only [handle] at hr
  · split_ifs at hr
    exact Option.some.inj hr ▸ rfl
  · cases ha
  · split_ifs at hr
    exact Option.some.inj hr ▸ lastEvent_closeWs s
  · split_ifs at hr
    exact Option.some.inj hr ▸ lastEvent_onclose _
  · split_ifs at hr
    exact Option.some.inj hr ▸ lastEvent_connect _
  · split_ifs at hr
    exact Option.some.inj hr ▸ lastEvent_cleanup s

end JobEvents

namespace Feed

variable {x : EventText} {l m : List FeedEvent} {s t : Feed} {d i : ℕ}

/-! ## Histories -/

theorem fedFrom_broadcast (o : Bool) (c : JobChange) :
    fedFrom d i o (.broadcast c :: l) = (if o then [c] else []) ++ fedFrom d i o l := by
  rcases o with _ | _ <;> rfl

theorem fedFrom_cons {o : Bool} {e : FeedEvent} (h : ∀ c, e ≠ .broadcast c) :
    fedFrom d i o (e :: l) = fedFrom d i (tune d i o e) l := by
  rcases e with c | c | ⟨e, k⟩ | ⟨e, k⟩ | ⟨e, k, data⟩
  · rcases o with _ | _ <;> rfl
  · exact absurd rfl (h c)
  all_goals rcases o with _ | _ <;> rfl

theorem fedFrom_append : ∀ (l : List FeedEvent) (o : Bool), fedFrom d i o (l ++ m)
    = fedFrom d i o l ++ fedFrom d i (l.foldl (tune d i) o) m
  | [], o => rfl
  | e :: l, o => by
    by_cases he : ∃ c, e = .broadcast c
    · obtain ⟨c, rfl⟩ := he
      rw [List.cons_append, fedFrom_broadcast, fedFrom_broadcast, fedFrom_append l o,
        List.append_assoc]
      rfl
    · have he : ∀ c, e ≠ .broadcast c := fun c hc => he ⟨c, hc⟩
      rw [List.cons_append, fedFrom_cons he, fedFrom_cons he, fedFrom_append l, List.foldl_cons]

/-- Whether the connection is open after these events. -/
def listens (d i : ℕ) (l : List FeedEvent) : Bool := l.foldl (tune d i) false

theorem fed_append (l m : List FeedEvent) :
    fed d i (l ++ m) = fed d i l ++ fedFrom d i (listens d i l) m :=
  fedFrom_append l false

theorem listens_append (l m : List FeedEvent) :
    listens d i (l ++ m) = m.foldl (tune d i) (listens d i l) :=
  List.foldl_append

theorem told_append (l m : List FeedEvent) : told d i (l ++ m) = told d i l ++ told d i m :=
  List.filterMap_append

theorem toldTo_append (l m : List FeedEvent) : toldTo d (l ++ m) = toldTo d l ++ toldTo d m :=
  List.filterMap_append

theorem listens_concat (l : List FeedEvent) (e : FeedEvent) :
    listens d i (l ++ [e]) = tune d i (listens d i l) e :=
  listens_append l [e]

theorem fed_broadcast (l : List FeedEvent) (c : JobChange) : fed d i (l ++ [.broadcast c])
    = fed d i l ++ if listens d i l then [c] else [] := by
  rw [fed_append, fedFrom_broadcast]
  simp [fedFrom]

theorem fed_concat (l : List FeedEvent) {e : FeedEvent} (h : ∀ c, e ≠ .broadcast c) :
    fed d i (l ++ [e]) = fed d i l := by
  rw [fed_append, fedFrom_cons h]
  simp [fedFrom]

theorem told_concat (l : List FeedEvent) {e : FeedEvent} (h : ∀ data, e ≠ .delivered d i data) :
    told d i (l ++ [e]) = told d i l := by
  have he : told d i [e] = [] := by
    refine List.filterMap_eq_nil_iff.2 fun e' he' => ?_
    obtain rfl := List.mem_singleton.1 he'
    rcases e' with _ | _ | _ | _ | ⟨d', i', data⟩ <;> try rfl
    exact if_neg fun hd => h data (by rw [hd.1, hd.2])
  rw [told_append, he, List.append_nil]

theorem told_delivered (l : List FeedEvent) (data : CodeUnits) :
    told d i (l ++ [.delivered d i data]) = told d i l ++ [data] := by
  rw [told_append]
  simp [told]

theorem toldTo_concat (l : List FeedEvent) {e : FeedEvent}
    (h : ∀ i data, e ≠ .delivered d i data) : toldTo d (l ++ [e]) = toldTo d l := by
  have he : toldTo d [e] = [] := by
    refine List.filterMap_eq_nil_iff.2 fun e' he' => ?_
    obtain rfl := List.mem_singleton.1 he'
    rcases e' with _ | _ | _ | _ | ⟨d', i', data⟩ <;> try rfl
    exact if_neg fun hd => h i' data (by rw [hd])
  rw [toldTo_append, he, List.append_nil]

theorem toldTo_delivered (l : List FeedEvent) (data : CodeUnits) :
    toldTo d (l ++ [.delivered d i data]) = toldTo d l ++ [data] := by
  rw [toldTo_append]
  simp [toldTo]

/-! ## What holds on the way -/

/-- What is in a connection's frames is what it was fed and has not told. -/
def Line (x : EventText) (l : List FeedEvent) (d i : ℕ) : Option Client → Prop
  | none => listens d i l = false ∧ fed d i l = [] ∧ told d i l = []
  | some c => listens d i l = decide (c.readyState = .opened)
      ∧ (fed d i l).map (fun c => c.event.payload x) = told d i l ++ c.frames

/-- What page `d` has as its last event. -/
structure Shows (x : EventText) (l : List FeedEvent) (d : ℕ) (v : Option Json) : Prop where
  latest : v = (toldTo d l).getLast?.bind Json.parse
  told : ∀ data ∈ toldTo d l, ∃ c, .broadcast c ∈ l ∧ data = c.event.payload x

/-- Every row there is, and every one that was read, was written. -/
structure Sourced (l : List FeedEvent) (p : Poller) : Prop where
  rows : ∀ j ∈ p.jobs, .wrote j.change ∈ l
  read : ∀ i changes, p.ticks i = some (.read changes) → ∀ c ∈ changes, .wrote c ∈ l

structure Carried (x : EventText) (l : List FeedEvent) (s : Feed) : Prop where
  line : ∀ d i, Line x l d i (s.clients d i)
  page : ∀ d, Shows x l d (s.pages d).lastEvent
  fed : ∀ d i, ∀ c ∈ fed d i l, .broadcast c ∈ l
  source : Sourced l s.poller
  written : ∀ c, .broadcast c ∈ l → .wrote c ∈ l

section Line

variable {o : Option Client}

theorem Line.other (h : Line x l d i o) {e : FeedEvent} (hb : ∀ c, e ≠ .broadcast c)
    (hd : ∀ data, e ≠ .delivered d i data) (ht : ∀ b, tune d i b e = b) :
    Line x (l ++ [e]) d i o := by
  unfold Line
  rw [listens_concat, fed_concat l hb, told_concat l hd, ht]
  exact h

theorem Line.broadcast (h : Line x l d i o) (c : JobChange) :
    Line x (l ++ [.broadcast c]) d i (o.map (Client.send (c.event.payload x))) := by
  have hl : listens d i (l ++ [.broadcast c]) = listens d i l := listens_concat l _
  have ht : Feed.told d i (l ++ [.broadcast c]) = Feed.told d i l := told_concat l (by simp)
  rcases o with _ | ⟨r, frames⟩
  · obtain ⟨h1, h2, h3⟩ := h
    refine ⟨hl.trans h1, ?_, ht.trans h3⟩
    rw [fed_broadcast, h1, h2]
    rfl
  · obtain ⟨h1, h2⟩ := h
    by_cases hr : r = .opened
    · have hsend : Client.send (c.event.payload x) ⟨r, frames⟩
          = ⟨r, frames ++ [c.event.payload x]⟩ := if_pos hr
      rw [Option.map_some, hsend]
      refine ⟨hl.trans h1, ?_⟩
      rw [fed_broadcast, ht, h1, decide_eq_true hr, if_pos rfl, List.map_append, h2,
        List.append_assoc]
      rfl
    · have hsend : Client.send (c.event.payload x) ⟨r, frames⟩ = ⟨r, frames⟩ := if_neg hr
      rw [Option.map_some, hsend]
      refine ⟨hl.trans h1, ?_⟩
      rw [fed_broadcast, ht, h1, decide_eq_false hr, if_neg (by simp), List.append_nil, h2]

theorem Line.accepted (h : Line x l d i none) : Line x (l ++ [.accepted d i]) d i (some {}) := by
  obtain ⟨-, h2, h3⟩ := h
  refine ⟨?_, ?_⟩
  · rw [listens_concat, tune, if_pos ⟨rfl, rfl⟩]
    rfl
  · rw [fed_concat l (by simp), told_concat l (by simp), h2, h3]
    rfl

theorem Line.dropped {c : Client} (h : Line x l d i (some c)) :
    Line x (l ++ [.dropped d i]) d i (some { c with readyState := .closed }) := by
  obtain ⟨-, h2⟩ := h
  refine ⟨?_, ?_⟩
  · rw [listens_concat, tune, if_pos ⟨rfl, rfl⟩]
    rfl
  · rw [fed_concat l (by simp), told_concat l (by simp)]
    exact h2

theorem Line.delivered {r : ReadyState} {data : CodeUnits} {frames : List CodeUnits}
    (h : Line x l d i (some ⟨r, data :: frames⟩)) :
    Line x (l ++ [.delivered d i data]) d i (some ⟨r, frames⟩) := by
  obtain ⟨h1, h2⟩ := h
  refine ⟨?_, ?_⟩
  · rw [listens_concat]
    exact h1
  · rw [fed_concat l (by simp), told_delivered, h2, List.append_assoc]
    rfl

/-- What is next on a connection is an event that was broadcast. -/
theorem Line.next {r : ReadyState} {data : CodeUnits} {frames : List CodeUnits}
    (h : Line x l d i (some ⟨r, data :: frames⟩)) :
    ∃ c ∈ fed d i l, c.event.payload x = data := by
  have hmem : data ∈ (fed d i l).map fun c => c.event.payload x := by
    rw [h.2]
    simp
  exact List.mem_map.1 hmem

end Line

theorem Shows.other {v : Option Json} (h : Shows x l d v) {e : FeedEvent}
    (hd : ∀ i data, e ≠ .delivered d i data) : Shows x (l ++ [e]) d v := by
  constructor
  · rw [toldTo_concat l hd]
    exact h.latest
  · intro data hdata
    rw [toldTo_concat l hd] at hdata
    obtain ⟨c, hc, hdc⟩ := h.told data hdata
    exact ⟨c, List.mem_append_left _ hc, hdc⟩

theorem Shows.delivered {v : Option Json} (h : Shows x l d v) {c : JobChange}
    (hc : .broadcast c ∈ l) : Shows x (l ++ [.delivered d i (c.event.payload x)]) d
      (some (c.event.json x)) := by
  constructor
  · rw [toldTo_delivered, List.getLast?_concat, Option.bind_some, JobUpdatedEvent.payload,
      Json.parse_stringify (c.event.valid x)]
  · intro data hdata
    rw [toldTo_delivered] at hdata
    rcases List.mem_append.1 hdata with hdata | hdata
    · obtain ⟨c', hc', hdc⟩ := h.told data hdata
      exact ⟨c', List.mem_append_left _ hc', hdc⟩
    · exact ⟨c, List.mem_append_left _ hc, List.mem_singleton.1 hdata⟩

theorem Sourced.append {p : Poller} (h : Sourced l p) (m : List FeedEvent) :
    Sourced (l ++ m) p :=
  ⟨fun j hj => List.mem_append_left _ (h.rows j hj),
    fun i changes hi c hc => List.mem_append_left _ (h.read i changes hi c hc)⟩

theorem mem_fed_concat {e : FeedEvent} (h : ∀ c ∈ fed d i l, .broadcast c ∈ l) :
    ∀ c ∈ fed d i (l ++ [e]), .broadcast c ∈ l ++ [e] := by
  intro c hc
  by_cases he : ∃ c', e = .broadcast c'
  · obtain ⟨c', rfl⟩ := he
    rw [fed_broadcast] at hc
    rcases List.mem_append.1 hc with hc | hc
    · exact List.mem_append_left _ (h c hc)
    · split_ifs at hc
      · rw [List.mem_singleton.1 hc]
        exact List.mem_append_right _ (List.mem_singleton_self _)
      · simp at hc
  · rw [fed_concat l fun c' hc' => he ⟨c', hc'⟩] at hc
    exact List.mem_append_left _ (h c hc)

theorem written_concat {e : FeedEvent} (h : ∀ c, .broadcast c ∈ l → .wrote c ∈ l)
    (he : ∀ c, e = .broadcast c → .wrote c ∈ l) (c : JobChange) (hc : .broadcast c ∈ l ++ [e]) :
    .wrote c ∈ l ++ [e] := by
  rcases List.mem_append.1 hc with hc | hc
  · exact List.mem_append_left _ (h c hc)
  · exact List.mem_append_left _ (he c (List.mem_singleton.1 hc).symm)

/-- A broadcast of a version that was written. -/
theorem Carried.broadcast (hI : Carried x l s) {c : JobChange} (hc : .wrote c ∈ l) :
    Carried x (l ++ [.broadcast c]) (s.broadcast x c.event) where
  line d i := (hI.line d i).broadcast c
  page d := (hI.page d).other (by simp)
  fed d i := mem_fed_concat (hI.fed d i)
  source := hI.source.append _
  written := written_concat hI.written fun c' hc' => FeedEvent.broadcast.inj hc' ▸ hc

theorem Carried.broadcasts : ∀ {changes : List JobChange} {l : List FeedEvent} {s : Feed},
    Carried x l s → (∀ c ∈ changes, .wrote c ∈ l) →
      Carried x (l ++ changes.map .broadcast)
        ((changes.map JobChange.event).foldl (Feed.broadcast x) s)
  | [], l, s, hI, _ => by simpa using hI
  | c :: changes, l, s, hI, h => by
    obtain ⟨hc, h⟩ := List.forall_mem_cons.1 h
    have ih := Carried.broadcasts (hI.broadcast hc) fun c' hc' => List.mem_append_left _ (h c' hc')
    rw [List.append_assoc] at ih
    exact ih

/-- Versions are written, and the poller goes on. -/
theorem Carried.wrote (hI : Carried x l s) {p : Poller} {o : Option JobChange}
    (hp : Sourced (l ++ (o.map .wrote).toList) p) :
    Carried x (l ++ (o.map .wrote).toList) { s with poller := p } := by
  rcases o with _ | c
  · simp only [Option.map_none, Option.toList_none, List.append_nil] at hp ⊢
    exact ⟨hI.line, hI.page, hI.fed, hp, hI.written⟩
  · exact ⟨fun d i => (hI.line d i).other (by simp) (by simp) fun _ => rfl,
      fun d => (hI.page d).other (by simp), fun d i => mem_fed_concat (hI.fed d i), hp,
      written_concat hI.written (by simp)⟩

/-! ### Each step -/

/-- A row that a commit leaves was there before, or is the one that it wrote. -/
theorem mem_jobs_of_run {c : Call} {jobs : Jobs} {j : Job} (h : j ∈ (c.run jobs).1) :
    j ∈ jobs ∨ (c.run jobs).2 = some j := by
  rcases hr : (c.run jobs).2 with _ | r
  · rw [Call.run_of_none hr] at h
    exact .inl h
  · have hj := Table.get_of_mem h
    rw [(Call.writes hr).2] at hj
    split_ifs at hj
    · exact .inr hj
    · exact .inl (Table.mem_of_get hj)

theorem wrote_eq (p : Poller) (a : PollerAction) :
    ∃ o : Option JobChange, wrote p a = (o.map .wrote).toList := by
  unfold wrote
  rcases a with _ | _ | ⟨w, id, op⟩ | _ | _ | _ | _ | _ | _ | _ <;> try exact ⟨none, rfl⟩
  dsimp only
  split
  · exact ⟨(Call.run p.jobs ⟨id, _, op⟩).2.map Job.change, by rw [Option.map_map]; rfl⟩
  · exact ⟨none, rfl⟩

theorem Sourced.setTick {p : Poller} (h : Sourced l p) {k : ℕ} {tick : Option Tick}
    (ht : ∀ changes, tick = some (.read changes) → ∀ c ∈ changes, .wrote c ∈ l) :
    Sourced l (p.setTick k tick) := by
  refine ⟨h.rows, fun i changes hi => ?_⟩
  rcases Poller.setTick_cases hi with ⟨-, hk⟩ | ⟨-, hk⟩
  · exact ht changes hk
  · exact h.read i changes hk

theorem Sourced.step {p q : Poller} {a : PollerAction} (h : Sourced l p) (hs : p.step a = some q) :
    Sourced (l ++ wrote p a) q := by
  cases Poller.step_cases hs with
  | @committed w id op begunAt hx =>
    have hw : wrote p (.commit w id op)
        = ((Call.run p.jobs ⟨id, begunAt, op⟩).2.map fun j => .wrote j.change).toList := by
      simp only [wrote, hx]
    rw [hw]
    refine ⟨fun j hj => ?_, (h.append _).read⟩
    rcases mem_jobs_of_run hj with hj | hj
    · exact (h.append _).rows j hj
    · rw [hj]
      simp
  | @queried i since hi =>
    refine (h.setTick fun changes hc c hm => ?_).append _
    obtain rfl := Tick.read.inj (Option.some.inj hc)
    obtain ⟨j, hj, -, rfl⟩ := mem_getJobChangesSince.1 hm
    exact h.rows j hj
  | ticked => exact (h.setTick (by simp)).append _
  | @finished i changes hi =>
    have hp : Sourced l (p.setTick i none) := h.setTick (by simp)
    exact ⟨(hp.append _).rows, (hp.append _).read⟩
  | rejected => exact (h.setTick (by simp)).append _
  | threw => exact (h.setTick (by simp)).append _
  | _ => exact ⟨(h.append _).rows, (h.append _).read⟩

/-- A tick broadcasts what it has read. -/
theorem Sourced.broadcasts {p q : Poller} {a : PollerAction} (h : Sourced l p) :
    ∀ c ∈ p.broadcasts a q, .wrote c ∈ l := by
  intro c hc
  rcases a with _ | _ | _ | _ | _ | _ | _ | i | _ | ⟨i, sent⟩ <;>
    simp only [Poller.broadcasts] at hc
  case finish =>
    split at hc
    · rename_i changes hi
      exact h.read i changes hi c hc
    · simp at hc
  case threw =>
    split at hc
    · rename_i changes hi
      exact h.read i changes hi c (List.mem_of_mem_take hc)
    · simp at hc
  all_goals simp at hc

theorem setClient_clients (c : Client) (e k : ℕ) :
    (s.setClient d i c).clients e k = if e = d ∧ k = i then some c else s.clients e k := rfl

/-- An event of one socket, which leaves the others and the pages as they are. -/
theorem Carried.setClient (hI : Carried x l s) {c : Client} {e : FeedEvent}
    (hb : ∀ c, e ≠ .broadcast c) (hd : ∀ d i data, e ≠ .delivered d i data)
    (hother : ∀ d' i', ¬ (d' = d ∧ i' = i) → ∀ b, tune d' i' b e = b)
    (hline : Line x (l ++ [e]) d i (some c)) : Carried x (l ++ [e]) (s.setClient d i c) where
  line d' i' := by
    rw [setClient_clients]
    split_ifs with h
    · obtain ⟨rfl, rfl⟩ := h
      exact hline
    · exact (hI.line d' i').other hb (hd d' i') (hother d' i' h)
  page d := (hI.page d).other (hd d)
  fed d i := mem_fed_concat (hI.fed d i)
  source := hI.source.append _
  written := written_concat hI.written fun c hc => absurd hc (hb c)

theorem Carried.deliver (hI : Carried x l s) {r : ReadyState} {data : CodeUnits}
    {frames : List CodeUnits} {page : JobEvents} (hc : s.clients d i = some ⟨r, data :: frames⟩)
    (hp : (s.pages d).step (.socketMessage i data) = some page) :
    Carried x (l ++ [.delivered d i data]) ((s.setPage d page).setClient d i ⟨r, frames⟩) := by
  have hline := hI.line d i
  rw [hc] at hline
  obtain ⟨c, hmem, rfl⟩ := hline.next
  refine ⟨fun d' i' => ?_, fun d' => ?_, fun d' i' => mem_fed_concat (hI.fed d' i'),
    hI.source.append _, written_concat hI.written (by simp)⟩
  · rw [setClient_clients]
    split_ifs with h
    · obtain ⟨rfl, rfl⟩ := h
      exact hline.delivered
    · refine (hI.line d' i').other (by simp) (fun data hdata => h ?_) fun _ => rfl
      obtain ⟨rfl, rfl, -⟩ := FeedEvent.delivered.inj hdata
      exact ⟨rfl, rfl⟩
  · show Shows x _ d' (Function.update s.pages d page d').lastEvent
    by_cases hd : d' = d
    · subst hd
      rw [Function.update_self]
      have hlast : page.lastEvent = some (c.event.json x) := by
        obtain ⟨⟨u, es⟩, hu, rfl⟩ := Option.map_eq_some_iff.1 hp
        simp only [JobEvents.handle] at hu
        split_ifs at hu
        obtain ⟨rfl, -⟩ := Prod.mk.inj (Option.some.inj hu)
        rw [JobEvents.onmessage_payload]
      rw [hlast]
      exact (hI.page d').delivered (hI.fed d' i c hmem)
    · rw [Function.update_of_ne hd]
      exact (hI.page d').other fun i' data hdata => hd (FeedEvent.delivered.inj hdata).1.symm

theorem Carried.step {a : FeedAction} (hI : Carried x l s) (h : s.step x a = some t) :
    Carried x (l ++ s.shown a t) t := by
  rcases a with a | ⟨d, i⟩ | ⟨d, i⟩ | ⟨d, i⟩ | ⟨d, a⟩ <;> simp only [Feed.step] at h
  · obtain ⟨p, hp, rfl⟩ := Option.map_eq_some_iff.1 h
    obtain ⟨o, ho⟩ := wrote_eq s.poller a
    have hsource := hI.source.step hp
    rw [ho] at hsource
    have hw := hI.wrote hsource
    have hb := hw.broadcasts (fun c hc => List.mem_append_left _ (hI.source.broadcasts c hc) :
      ∀ c ∈ s.poller.broadcasts a p, .wrote c ∈ l ++ (o.map .wrote).toList)
    rw [← ho, List.append_assoc] at hb
    exact hb
  · split at h
    · rename_i hc
      split_ifs at h
      obtain rfl := Option.some.inj h
      have hline := hI.line d i
      rw [hc] at hline
      refine hI.setClient (by simp) (by simp) (fun d' i' hne b => if_neg fun he => hne ?_)
        hline.accepted
      exact ⟨he.1.symm, he.2.symm⟩
    · cases h
  · split at h
    · rename_i c hc
      split_ifs at h
      obtain rfl := Option.some.inj h
      have hline := hI.line d i
      rw [hc] at hline
      refine hI.setClient (by simp) (by simp) (fun d' i' hne b => if_neg fun he => hne ?_)
        hline.dropped
      exact ⟨he.1.symm, he.2.symm⟩
    · cases h
  · split at h
    · rename_i r data frames hc
      obtain ⟨page, hp, rfl⟩ := Option.map_eq_some_iff.1 h
      rw [show s.shown (.message d i) _ = [.delivered d i data] by simp only [shown, hc]]
      exact hI.deliver hc hp
    · cases h
  · split_ifs at h with ha
    obtain ⟨page, hp, rfl⟩ := Option.map_eq_some_iff.1 h
    rw [show s.shown (.page d a) _ = [] from rfl, List.append_nil]
    refine ⟨hI.line, fun d' => ?_, hI.fed, hI.source, hI.written⟩
    show Shows x l d' (Function.update s.pages d page d').lastEvent
    by_cases hd : d' = d
    · subst hd
      rw [Function.update_self, JobEvents.lastEvent_of_step hp (by simpa using ha)]
      exact hI.page d'
    · rw [Function.update_of_ne hd]
      exact hI.page d'

theorem carried_init : Carried x [] init where
  line _ _ := ⟨rfl, rfl, rfl⟩
  page _ := ⟨rfl, by simp [toldTo]⟩
  fed _ _ := by simp [fed, fedFrom]
  source := ⟨fun _ h => absurd h (List.not_mem_nil), fun _ _ h => by simp [init, Poller.init] at h⟩
  written := by simp

theorem carried_of_exec {as : List FeedAction} (h : exec (step x) init as = some s) :
    Carried x (trace (step x) shown init as) s := by
  have hstep : ∀ l s a t, Carried x l s → step x s a = some t → Carried x (l ++ s.shown a t) t :=
    fun _ _ _ _ hI h => hI.step h
  exact exec_trace_inv hstep carried_init h

/-- The dashboards are told the versions of the rows, in order and once each. -/
theorem feed_faithful {as : List FeedAction} (h : exec (step x) init as = some s) :
    Faithful x (trace (step x) shown init as) s := by
  have hI := carried_of_exec h
  refine ⟨fun d i => ?_, fun d => (hI.page d).latest, fun d data hdata => ?_, hI.written⟩
  · have hline := hI.line d i
    rcases hc : s.clients d i with _ | c <;> rw [hc] at hline
    · refine ⟨[], ?_, by simp⟩
      rw [hline.2.1, hline.2.2]
      rfl
    · exact ⟨c.frames, hline.2, by simp⟩
  · obtain ⟨c, hc, rfl⟩ := (hI.page d).told data hdata
    exact ⟨c, hc, Json.parse_stringify (c.event.valid x)⟩

/-- One UUID's text, and those of two `Date`s. -/
def sampleText : EventText where
  uuid _ := ascii ['0', '0', '0', '0', '0', '0', '0', '0', '-', '0', '0', '0', '0', '-', '0', '0',
    '0', '0', '-', '0', '0', '0', '0', '-', '0', '0', '0', '0', '0', '0', '0', '0', '0', '0', '0',
    '1']
  date t := ascii ['1', '9', '7', '0', '-', '0', '1', '-', '0', '1', 'T', '0', '0', ':', '0', '0',
    ':', '0', if t = 1000 then '1' else '2', '.', '0', '0', '0', 'Z']
  uuid_lt _ := by decide
  date_lt t := by
    split_ifs <;> decide

/-- A job is created, and claimed once a second dashboard has connected. -/
def twoDashboards : List FeedAction :=
  [.poller .getStartupCursor, .accept 0 0, .page 0 (.socketOpen 0), .poller (.clock (seconds 1)),
    .poller (.begin 0), .poller (.commit 0 1 (.createJob "email" [])), .poller (.tick 0),
    .poller (.query 0), .poller (.finish 0), .accept 1 0, .message 0 0,
    .poller (.clock (seconds 2)), .poller (.begin 0), .poller (.commit 0 1 .claimJob),
    .poller (.tick 0), .poller (.query 0), .poller (.finish 0), .message 1 0, .drop 0 0]

theorem feed_faithful_twoDashboards : ∃ s, exec (step sampleText) init twoDashboards = some s
    ∧ told 1 0 (trace (step sampleText) shown init twoDashboards)
      = [JobUpdatedEvent.payload sampleText ⟨1, .processing, 2000⟩]
    ∧ Faithful sampleText (trace (step sampleText) shown init twoDashboards) s := by
  have hrun : (exec (step sampleText) init twoDashboards).isSome = true := by decide +kernel
  obtain ⟨s, hs⟩ := Option.isSome_iff_exists.1 hrun
  exact ⟨s, hs, by decide +kernel, feed_faithful hs⟩

/-! ## Telling all -/

theorem poller_foldl (es : List JobUpdatedEvent) : ∀ s : Feed,
    (es.foldl (broadcast x) s).poller = s.poller := by
  induction es with
  | nil => exact fun _ => rfl
  | cons e es ih => exact fun s => ih (s.broadcast x e)

def toBroadcast : FeedEvent → Option JobChange
  | .broadcast c => some c
  | _ => none

theorem broadcasts_shown (a : PollerAction) :
    (s.shown (.poller a) t).filterMap toBroadcast = s.poller.broadcasts a t.poller := by
  obtain ⟨o, ho⟩ := wrote_eq s.poller a
  have hw : (wrote s.poller a).filterMap toBroadcast = [] := by
    rw [ho]
    rcases o with _ | c <;> rfl
  rw [shown, List.filterMap_append, hw, List.nil_append, List.filterMap_map]
  exact List.filterMap_some

theorem step_pollerPart {a : FeedAction} {b : PollerAction} (hp : pollerPart a = some b)
    (h : s.step x a = some t) : s.poller.step b = some t.poller
      ∧ (s.shown a t).filterMap toBroadcast = s.poller.broadcasts b t.poller := by
  rcases a with a | _ | _ | _ | _ <;> simp only [pollerPart, Option.some.injEq, reduceCtorEq] at hp
  subst hp
  obtain ⟨p, hp, rfl⟩ := Option.map_eq_some_iff.1 h
  rw [poller_foldl]
  exact ⟨hp, broadcasts_shown a⟩

theorem step_otherPart {a : FeedAction} (hp : pollerPart a = none) (h : s.step x a = some t) :
    t.poller = s.poller ∧ (s.shown a t).filterMap toBroadcast = [] := by
  rcases a with a | ⟨d, i⟩ | ⟨d, i⟩ | ⟨d, i⟩ | ⟨d, a⟩ <;> simp only [step] at h
  · cases hp
  · split at h
    · split_ifs at h
      exact Option.some.inj h ▸ ⟨rfl, rfl⟩
    · cases h
  · split at h
    · split_ifs at h
      exact Option.some.inj h ▸ ⟨rfl, rfl⟩
    · cases h
  · split at h
    · rename_i hc
      obtain ⟨page, -, rfl⟩ := Option.map_eq_some_iff.1 h
      refine ⟨rfl, ?_⟩
      simp only [shown, hc]
      rfl
    · cases h
  · split_ifs at h
    obtain ⟨page, -, rfl⟩ := Option.map_eq_some_iff.1 h
    exact ⟨rfl, rfl⟩

/-- The poller's part of a run is a run of the poller. -/
theorem exec_poller {as : List FeedAction} (h : exec (step x) init as = some s) :
    exec Poller.step Poller.init (as.filterMap pollerPart) = some s.poller :=
  exec_part (v := Feed.poller) (fun _ _ _ _ hp h => (step_pollerPart hp h).1)
    (fun _ _ _ hp h => (step_otherPart hp h).1) h

theorem mem_trace_poller {as : List FeedAction} (h : exec (step x) init as = some s)
    {c : JobChange} : c ∈ trace Poller.step Poller.broadcasts Poller.init (as.filterMap pollerPart)
      ↔ .broadcast c ∈ trace (step x) shown init as := by
  have htr := trace_part (v := Feed.poller)
    (o := fun s a t => (shown s a t).filterMap toBroadcast)
    (fun _ _ _ _ hp h => step_pollerPart hp h) (fun _ _ _ hp h => step_otherPart hp h) h
  rw [show Poller.init = (init : Feed).poller from rfl, ← htr, ← filterMap_trace,
    List.mem_filterMap]
  constructor
  · rintro ⟨e, he, hec⟩
    rcases e with _ | c' | _ | _ | _ <;> simp only [toBroadcast, Option.some.injEq, reduceCtorEq]
      at hec
    exact hec ▸ he
  · exact fun he => ⟨_, he, rfl⟩

/-- While the connection is open, it is fed all that is broadcast. -/
theorem mem_fedFrom {c : JobChange} : ∀ {m : List FeedEvent}, .dropped d i ∉ m →
    .broadcast c ∈ m → c ∈ fedFrom d i true m
  | [], _, hc => by simp at hc
  | e :: m, hm, hc => by
    rw [List.mem_cons, not_or] at hm
    have htune : tune d i true e = true := by
      rcases e with _ | _ | ⟨d', i'⟩ | ⟨d', i'⟩ | _ <;> try rfl
      · exact ite_self _
      · refine if_neg fun h => hm.1 ?_
        rw [h.1, h.2]
    by_cases he : ∃ c', e = .broadcast c'
    · obtain ⟨c', rfl⟩ := he
      rw [fedFrom_broadcast]
      rcases List.mem_cons.1 hc with hc | hc
      · obtain rfl := FeedEvent.broadcast.inj hc
        simp
      · exact List.mem_append_right _ (mem_fedFrom hm.2 hc)
    · rw [fedFrom_cons fun c' hc' => he ⟨c', hc'⟩, htune]
      rcases List.mem_cons.1 hc with hc | hc
      · exact absurd ⟨c, hc.symm⟩ he
      · exact mem_fedFrom hm.2 hc

theorem not_dropped {as : List FeedAction} (h : .drop d i ∉ as) (s : Feed) :
    .dropped d i ∉ trace (step x) shown s as := by
  intro hm
  obtain ⟨a, ha, u, v, hu, he⟩ := exists_of_mem_trace hm
  rcases a with a | ⟨d', i'⟩ | ⟨d', i'⟩ | ⟨d', i'⟩ | ⟨d', a⟩ <;> simp only [shown] at he
  · obtain ⟨o, ho⟩ := wrote_eq u.poller a
    rw [ho] at he
    rcases o with _ | c <;> simp at he
  · simp at he
  · obtain ⟨rfl, rfl⟩ := FeedEvent.dropped.inj (List.mem_singleton.1 he)
    exact h ha
  · split at he
    · simp at he
    · simp at he
  · simp at he

/-- A version that the poll found has been broadcast by its end. -/
theorem broadcast_by_end {as l₁ l₂ l₃ : List FeedAction} {r : Feed}
    (has : as = l₁ ++ .poller (.query i) :: (l₂ ++ .poller (.finish i) :: l₃))
    (ho : Steps Poller.step Poller.OneAtATime Poller.init (as.filterMap pollerPart))
    (hb : Steps Poller.step Poller.BeforePolls Poller.init (as.filterMap pollerPart))
    (he : ∀ a ∈ l₂.filterMap pollerPart, Poller.ends a ≠ some i)
    (hr : exec (step x) init l₁ = some r) (ht : exec (step x) init as = some t)
    {j : Job} (hj : j ∈ r.poller.jobs) {startup : ℤ} (hs : startup ∈ r.poller.startup)
    (hlt : toTimestamp startup < j.updatedAt) :
    .broadcast j.change ∈ trace (step x) shown init as := by
  have hparts : as.filterMap pollerPart
      = (l₁.filterMap pollerPart ++ .query i :: (l₂.filterMap pollerPart ++ [.finish i]))
        ++ l₃.filterMap pollerPart := by
    simp [has, pollerPart]
  have hexec := exec_poller ht
  rw [← mem_trace_poller ht]
  rw [hparts] at ho hb hexec ⊢
  obtain ⟨u, hu, -⟩ := exec_append.1 hexec
  rw [trace_append hu]
  refine List.mem_append_left _ ?_
  have hpoll := exec_poller hr
  have hI := Poller.sees_of_exec hpoll ho.left.left hb.left.left
  rcases hI.row startup hs j hj hlt with hl | ha
  · rw [trace_append hpoll]
    exact List.mem_append_left _ hl
  · obtain ⟨s', hs', hq⟩ := exec_append.1 hu
    obtain rfl := Option.some.inj (hpoll.symm.trans hs')
    obtain ⟨v, hv, -⟩ := exec_cons.1 hq
    cases Poller.step_cases hv with
    | @queried _ since hi =>
      refine Poller.broadcast_of_finish hpoll hi he hu (mem_getJobChangesSince.2 ⟨j, hj, ?_, rfl⟩)
      rw [hI.sent i since hi]
      exact ha.1

/-- What is broadcast on a connection that is accepted and not dropped has been told there, once
nothing is left to come in. -/
theorem Carried.told_all (hI : Carried x (l ++ .accepted d i :: m) s) (hm : .dropped d i ∉ m)
    (hframes : ∀ c ∈ s.clients d i, c.frames = []) {c : JobChange} (hc : .broadcast c ∈ m) :
    c.event.payload x ∈ told d i (l ++ .accepted d i :: m) := by
  have hmem : c ∈ Feed.fed d i (l ++ .accepted d i :: m) := by
    rw [fed_append]
    refine List.mem_append_right _ ?_
    rw [fedFrom_cons (by simp), tune, if_pos ⟨rfl, rfl⟩]
    exact mem_fedFrom hm hc
  have hline := hI.line d i
  rcases hs : s.clients d i with _ | client <;> rw [hs] at hline
  · rw [hline.2.1] at hmem
    simp at hmem
  · have htold := hline.2
    rw [hframes client hs, List.append_nil] at htold
    rw [← htold]
    exact List.mem_map_of_mem hmem

/-- Where no poll misses a write, no dashboard that stays connected is left untold of one. -/
theorem dashboards_told {as : List FeedAction}
    (ho : Steps Poller.step Poller.OneAtATime Poller.init (as.filterMap pollerPart))
    (hb : Steps Poller.step Poller.BeforePolls Poller.init (as.filterMap pollerPart)) :
    TellsAll x as := by
  intro l₁ d k l₂ i l₃ l₄ r t has he hdrop hr ht hframes j hj startup hs hlt
  have hsplit : as = (l₁ ++ .accept d k :: l₂) ++ .poller (.query i)
      :: (l₃ ++ .poller (.finish i) :: l₄) := by
    simp [has]
  have hcast : .broadcast j.change ∈ trace (step x) shown init as :=
    broadcast_by_end hsplit ho hb he hr ht hj hs hlt
  have hI := carried_of_exec ht
  rw [has] at hcast hI ht ⊢
  obtain ⟨q, hq, hqt⟩ := exec_append.1 ht
  obtain ⟨v, hv, -⟩ := exec_cons.1 hqt
  rw [trace_append hq, trace_cons hv] at hcast hI ⊢
  rcases List.mem_append.1 hcast with hcast | hcast
  · exact .inl hcast
  · refine .inr (hI.told_all (not_dropped (fun h => hdrop ?_) v) hframes
      ((List.mem_cons.1 hcast).resolve_left (by simp)))
    rw [has]
    exact List.mem_append_right _ (List.mem_cons_of_mem _ h)

theorem dashboards_told_twoDashboards :
    (exec (step sampleText) init twoDashboards).isSome = true ∧ TellsAll sampleText twoDashboards :=
  ⟨by decide +kernel, dashboards_told
    (Poller.steps_of_alone (fun _ _ _ => Poller.oneAtATime_of_alone) (by decide) (by decide))
    (Poller.steps_of_alone (fun _ _ _ => Poller.beforePolls_of_alone) (by decide) (by decide))⟩

end Feed

end DeadLetter
