import DeadLetter.Handling
import DeadLetter.Stringify

/-!
# The messages

What `publishJobCreated`, `publishRetry` and `publishDeadLetter` send, and where a message comes
from: it is one that was sent, or one that a handler has sent for it.
-/

namespace DeadLetter

/-- `Buffer.from(JSON.stringify({ jobId }))`, which leaves out what is `undefined`. -/
def messageBody (jobId : Option Json) : List UInt8 :=
  utf8Encode (Json.stringify (.object (jobId.toList.map fun v => (jobIdKey, v))))

/-- The messages that a handler publishes in a step. -/
def Handling.sent (pg : Pg) (s : Handling) (a : HandlingAction) (t : Handling) :
    List (Destination × List UInt8) :=
  (s.shown pg a t).filterMap fun
    | .published destination _ => some (destination, messageBody s.delivery.jobId)
    | _ => none

/-- The message, or one that a handler has published when it was delivered such a one. -/
inductive Relayed (pg : Pg) (body : List UInt8) : List UInt8 → Prop
  | refl : Relayed pg body body
  | hop {b : List UInt8} {jobs : Jobs} {as : List HandlingAction} {t : Handling}
      {m : Destination × List UInt8} (hb : Relayed pg body b)
      (h : Transition.exec (Handling.step pg) (Handling.start b jobs) as = some t)
      (hm : m ∈ Transition.trace (Handling.step pg) (Handling.sent pg) (Handling.start b jobs) as) :
      Relayed pg body m.2

/-- A handler of the message works on the job that `jobId` names, and on no other. It does no harm,
but for a `jobId` with a NUL in it: then all it does is requeue the message. -/
structure KeepsTo (pg : Pg) (jobId : CodeUnits) (body : List UInt8) : Prop where
  read : Delivery.receive body = ({ jobId := some (.string jobId), phase := .claimJob }, [])
  harmless : 0 ∉ jobId → ∀ jobs as t,
    Transition.exec (Handling.step pg) (Handling.start body jobs) as = some t →
      Harmless pg body jobs as t
  requeued : 0 ∈ jobId → ∀ jobs as t,
    Transition.exec (Handling.step pg) (Handling.start body jobs) as = some t →
      Handling.events pg body jobs as = (if t.delivery.phase.ended = true then [.requeued] else [])
        ∧ Transition.Steps (Handling.step pg) (fun s a t => a.own = true → t.jobs = s.jobs)
          (Handling.start body jobs) as
  rows : ∀ jobs as, Transition.Steps (Handling.step pg)
    (fun s a t => a.own = true → ∀ k, t.jobs.get k ≠ s.jobs.get k →
      pg.param (some (.string jobId)) = .uuid k)
    (Handling.start body jobs) as

end DeadLetter
