import DeadLetter.Subscription
import DeadLetter.Proofs.Connection

/-!
# The consumer is attached, or its loss will be heard

A connection that a consumer was attached to is open, or has an event to deliver, or a loop is to
attach another (`Subscriber.Served`). Only the delivery of that event could break this:
`invalidate` drops it where another connection is cached, and `resubscribeWithBackoff` where the
loop has its consumer but has not returned.
-/

namespace DeadLetter

open Transition

namespace Subscriber

variable {s t : Subscriber} {startup : Bool} {sub : Subscribe}

/-- `subscribe` has attached its consumer before `startConsumer` returns. -/
def Consuming (s : Subscriber) : Prop :=
  s.startup = .succeeded ∨ (∃ n, s.startup = .subscribing (.consumed n)) → s.consumers ≠ []

/-- A consumer's connection is open, or its loss is to be told of, unless a loop is to attach
another. -/
def SomeTold (s : Subscriber) : Prop :=
  s.consumers ≠ [] → s.resubscribing = false → ∃ n ∈ s.consumers, s.link.Told n

structure Served (s : Subscriber) : Prop where
  watched : s.link.Watched
  consuming : s.Consuming
  told : s.SomeTold

theorem served_init : Served init :=
  ⟨⟨rfl, fun _ => rfl, fun _ h => by simp [init] at h, fun _ _ h => by simp [init] at h⟩,
    by simp [Consuming, init], fun h => absurd rfl h⟩

theorem Served.attached (hI : Served s) : s.Attached := by
  intro hs he hl
  obtain ⟨n, hn, ho | hd⟩ := hI.told (hI.consuming (.inl hs)) (by simp [resubscribing, hl])
  · exact ⟨n, hn, ho⟩
  · simp [he] at hd

/-! ## A subscription goes on -/

theorem someTold_of_resubscribing (h : s.resubscribing = true) : s.SomeTold :=
  fun _ h' => absurd (h.symm.trans h') (by simp)

theorem resubscribing_set (hs : ∀ n, sub ≠ .consumed n) (hl : s.loop ≠ none) :
    (s.setSubscribing false sub).resubscribing = true := by
  obtain ⟨l, hl⟩ := Option.ne_none_iff_exists'.1 hl
  unfold resubscribing setSubscribing
  rw [hl]
  cases sub <;> simp_all

theorem setSubscribing_noLoop (hl : s.loop = none) : s.setSubscribing false sub = s := by
  obtain ⟨link, startup, loop, consumers⟩ := s
  subst hl
  rfl

theorem Served.set (hI : Served s) (hs : ∀ n, sub ≠ .consumed n) :
    Served (s.setSubscribing startup sub) := by
  cases startup
  · by_cases hl : s.loop = none
    · rw [setSubscribing_noLoop hl]
      exact hI
    · exact ⟨hI.watched, hI.consuming, someTold_of_resubscribing (resubscribing_set hs hl)⟩
  · refine ⟨hI.watched, ?_, hI.told⟩
    rintro (h | ⟨n, h⟩)
    · exact absurd h (by simp [setSubscribing])
    · exact absurd (Startup.subscribing.inj h) (hs n)

theorem Served.throw (hI : Served s) : Served (s.throw startup) := by
  cases startup
  · refine ⟨hI.watched, hI.consuming, ?_⟩
    rcases hl : s.loop with _ | l
    · intro hc _
      exact hI.told hc (by simp [resubscribing, hl])
    · exact someTold_of_resubscribing (by simp [Subscriber.throw, resubscribing, hl])
  · exact ⟨hI.watched, by simp [Consuming, Subscriber.throw], hI.told⟩

theorem Served.finish (hI : Served s) {n : ℕ} (h : s.subscribing startup = some (.consumed n)) :
    Served (s.finish startup) := by
  cases startup
  · refine ⟨hI.watched, hI.consuming, fun hc _ => hI.told hc ?_⟩
    obtain ⟨⟨delayMs, sub⟩, hl, hsub⟩ := Option.bind_eq_some_iff.1 h
    simp only at hsub
    simp [resubscribing, hl, hsub]
  · refine ⟨hI.watched, fun _ => hI.consuming (.inr ⟨n, ?_⟩), hI.told⟩
    simp only [subscribing, if_true] at h
    split at h
    · rename_i hs
      rw [hs, Option.some.inj h]
    · simp at h

theorem Served.consume (hI : Served s) {n : ℕ} (ho : (s.link.pairs n).isOpen = true) :
    Served (Subscriber.setSubscribing { s with consumers := n :: s.consumers } startup
      (.consumed n)) := by
  have hn : ∃ m ∈ n :: s.consumers, s.link.Told m := ⟨n, List.mem_cons_self, .inl ho⟩
  cases startup
  · exact ⟨hI.watched, fun _ => List.cons_ne_nil _ _, fun _ _ => hn⟩
  · exact ⟨hI.watched, fun _ => List.cons_ne_nil _ _, fun _ _ => hn⟩

/-- The module's step loses no connection whose event it does not deliver. -/
theorem SomeTold.link {a : LinkAction Caller} {link : Link Caller} {o : LinkOutput Caller}
    (hT : s.SomeTold) (h : s.link.step workerTopology a = some (link, o))
    (hH : ∀ n r, a = .deliver n r → n ∈ s.consumers → s.resubscribing = false →
      ∃ m ∈ s.consumers, m ≠ n ∧ s.link.Told m) : SomeTold { s with link } := by
  intro hc hr
  obtain ⟨n, hn, hd⟩ := hT hc hr
  rcases hd.step h with hd | ⟨r, rfl⟩
  · exact ⟨n, hn, hd⟩
  · obtain ⟨m, hm, hmn, hd⟩ := hH n r rfl hn hr
    rcases hd.step h with hd | ⟨r', he⟩
    · exact ⟨m, hm, hd⟩
    · exact absurd (LinkAction.deliver.inj he).1.symm hmn

/-- A call of `getChannel` loses no connection, and leaves a loop to attach its consumer. -/
theorem served_call (hW : s.link.Watched) (hC : s.Consuming)
    (hT : s.loop = none ∨ startup = true → s.SomeTold)
    (h : s.callGetChannel startup = some t) : Served t := by
  obtain ⟨⟨link, o⟩, hg, rfl⟩ := Option.map_eq_some_iff.1 h
  have hstep : s.link.step workerTopology (.getChannel (if startup then .startup else .loop))
      = some (link, o) := hg
  have hW' : link.Watched := hW.step (by simp) hstep
  have hsub : ∀ n, calledGetChannel o ≠ .consumed n := by
    intro n
    cases o <;> simp [calledGetChannel]
  by_cases hl : s.loop = none ∨ startup = true
  · have hI : Served { s with link } := ⟨hW', hC, (hT hl).link hstep (by simp)⟩
    exact hI.set hsub
  · obtain ⟨hl', hst⟩ := not_or.1 hl
    obtain rfl : startup = false := by simpa using hst
    exact ⟨hW', hC, someTold_of_resubscribing (resubscribing_set hsub hl')⟩

/-- The `invalidated` event starts the loop where none runs. -/
theorem served_invalidated (hW : s.link.Watched) (hC : s.Consuming) (hl : s.loop = none)
    (h : s.react .invalidated = some t) : Served t := by
  simp only [react, hl] at h
  exact served_call (s := { s with loop := some {} }) hW hC (by simp) h

theorem Served.react (hI : Served s) {o : LinkOutput Caller} (h : s.react o = some t) :
    Served t := by
  by_cases ho : o = .invalidated ∧ s.loop = none
  · obtain ⟨rfl, hl⟩ := ho
    exact served_invalidated hI.watched hI.consuming hl h
  unfold Subscriber.react at h
  split at h
  · exact Option.some.inj h ▸ hI
  · exact Option.some.inj h ▸ hI.set (by simp)
  · exact Option.some.inj h ▸ hI.set (by simp)
  · exact Option.some.inj h ▸ hI
  · exact Option.some.inj h ▸ hI.throw
  · exact Option.some.inj h ▸ hI.throw
  · exact Option.some.inj h ▸ hI
  · split at h
    · exact Option.some.inj h ▸ hI
    · rename_i hl
      exact absurd ⟨rfl, hl⟩ ho

/-! ## Every step keeps it -/

theorem Served.linkStep {a : LinkAction Caller} (hI : Served s) (hN : closes (.link a) = false)
    (hH : Heard s (.link a)) (h : s.step (.link a) = some t) : Served t := by
  simp only [Subscriber.step, Option.ite_none_right_eq_some] at h
  obtain ⟨⟨link, o⟩, hs, hr⟩ := Option.bind_eq_some_iff.1 h.2
  have hW : link.Watched := hI.watched.step (by rintro j rfl; simp [closes] at hN) hs
  by_cases hT : SomeTold { s with link }
  · exact Served.react (s := { s with link }) ⟨hW, hI.consuming, hT⟩ hr
  · -- The last event of the last consumer: it is that of the cached connection.
    have hc : o = .invalidated ∧ s.loop = none := by
      by_contra hc
      refine hT (hI.told.link hs ?_)
      rintro n r rfl hn hrs
      rcases hH n rfl hn hrs with ⟨hch, hl⟩ | hm
      · exact absurd ⟨hI.watched.invalidated hch hs, hl⟩ hc
      · exact hm
    obtain ⟨rfl, hl⟩ := hc
    exact served_invalidated (s := { s with link }) hW hI.consuming hl hr

theorem Served.step {a : SubscriberAction} (hI : Served s) (hN : closes a = false)
    (hH : Heard s a) (h : s.step a = some t) : Served t := by
  cases a with
  | link a => exact hI.linkStep hN hH h
  | startConsumer =>
    simp only [Subscriber.step] at h
    split at h
    · exact served_call hI.watched hI.consuming (fun _ => hI.told) h
    · simp at h
  | wake =>
    simp only [Subscriber.step] at h
    split at h
    · exact served_call (s := { s with loop := some _ }) hI.watched hI.consuming (by simp) h
    · simp at h
  | reply startup ok =>
    simp only [Subscriber.step] at h
    split at h
    · exact Option.some.inj h ▸ hI.throw
    · exact Option.some.inj h ▸ hI.throw
    · split_ifs at h
      exact Option.some.inj h ▸ hI.set (by simp)
    · split_ifs at h with ho
      exact Option.some.inj h ▸ hI.consume ho
    · simp at h
  | resume startup =>
    simp only [Subscriber.step] at h
    split at h
    · exact Option.some.inj h ▸ hI.set (by simp)
    · exact Option.some.inj h ▸ hI.set (by simp)
    · rename_i hs
      exact Option.some.inj h ▸ hI.finish hs
    · simp at h

/-- While the module is not closed and every event of a consumer's connection is heard, or leaves
another, the worker is never detached for good. -/
theorem attached_of_heard {as : List SubscriberAction} (h : exec step init as = some s)
    (hH : Steps step (fun s a _ => closes a = false ∧ Heard s a) init as) : s.Attached :=
  (exec_inv_of_steps (fun _ _ _ hI hR h => hI.step hR.1 hR.2 h) served_init hH h).attached

/-- A call of `getChannel` that finds no channel, where all goes well. -/
def opening (c : Caller) : List SubscriberAction :=
  (List.replicate (workerTopology.length + 2)
    [.link (.reply c true), .link (.resume c)]).flatten

def attaching (startup : Bool) : List SubscriberAction :=
  [.resume startup, .reply startup true, .resume startup, .reply startup true, .resume startup]

/-- The consumer's connection is lost, and the worker resubscribes. -/
def resubscribed : List SubscriberAction :=
  .startConsumer :: opening .startup ++ attaching true
    ++ [.link (.lost 0 true [.connectionError, .connectionClosed]),
      .link (.deliver 0 .connectionError), .link (.deliver 0 .connectionClosed)]
    ++ opening .loop ++ attaching false

theorem attached_of_heard_resubscribed : ∃ s, exec step init resubscribed = some s
    ∧ s.startup = .succeeded ∧ s.link.events = [] ∧ s.loop = none ∧ s.Attached :=
  ⟨_, rfl, rfl, rfl, rfl, @attached_of_heard _ resubscribed rfl (by decide)⟩

/-- While the loop opens a connection, so does a handler, which caches its own over the one that
the loop then consumes from. -/
def cachedOver : List SubscriberAction :=
  .startConsumer :: opening .startup ++ attaching true
    ++ [.link (.lost 0 true [.connectionClosed]), .link (.deliver 0 .connectionClosed),
      .link (.getChannel (.publisher 0))]
    ++ opening .loop ++ attaching false ++ opening (.publisher 0)
    ++ [.link (.lost 1 true [.connectionClosed]), .link (.deliver 1 .connectionClosed)]

theorem cachedOver_detached : ∃ s, exec step init cachedOver = some s
    ∧ (∀ a ∈ cachedOver, closes a = false) ∧ ¬ s.Attached :=
  ⟨_, rfl, by decide, by decide⟩

end Subscriber

end DeadLetter
