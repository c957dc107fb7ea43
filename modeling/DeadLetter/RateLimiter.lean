import Mathlib.Algebra.Order.Field.Rat
import Mathlib.Data.Rat.Floor
import Mathlib.Logic.Function.Basic
import DeadLetter.TokenBucket

/-!
# The rate limiter

`middleware/rateLimiter.ts`, in exact rational arithmetic: a map of buckets by client key, of which
a request refills its own and takes a token from it, or is answered 429 with the time to wait. The
clock is what `now()` returns, and need not run forward.
-/

namespace DeadLetter

open Transition TokenBucket

/-- `defaultIdentify`, where `production` is `NODE_ENV === "production"`. -/
def defaultIdentify (production : Bool) (testClientId ip : Option String) : String :=
  match production, testClientId with
  | false, some id => if id ≠ "" then s!"test:{id}" else ip.getD "unknown"
  | _, _ => ip.getD "unknown"

structure RateLimiter where
  capacity : ℚ
  windowSeconds : ℚ
  capacity_pos : 0 < capacity
  windowSeconds_pos : 0 < windowSeconds

def createRateLimiter (capacity windowSeconds : ℚ) : Except String RateLimiter :=
  if hc : capacity ≤ 0 then .error "createRateLimiter: capacity must be > 0"
  else if hw : windowSeconds ≤ 0 then .error "createRateLimiter: windowSeconds must be > 0"
  else .ok ⟨capacity, windowSeconds, not_le.1 hc, not_le.1 hw⟩

abbrev Buckets := String → Option (Bucket ℚ)

/-- `next()`, or a 429 with its `Retry-After`. -/
inductive Admission
  | next
  | tooManyRequests (retryAfterSeconds : ℤ)
  deriving DecidableEq, Repr

namespace RateLimiter

variable (rl : RateLimiter)

def refillTokensPerMs : ℚ := rl.capacity / (rl.windowSeconds * 1000)

def getOrRefillBucket (buckets : Buckets) (key : String) (nowMs : ℚ) : Buckets × Bucket ℚ :=
  match buckets key with
  | none =>
    let fresh := { tokens := rl.capacity, lastRefill := nowMs }
    (Function.update buckets key (some fresh), fresh)
  | some existing =>
    let elapsedMs := nowMs - existing.lastRefill
    if elapsedMs > 0 then
      let tokens := min rl.capacity (existing.tokens + elapsedMs * rl.refillTokensPerMs)
      (Function.update buckets key (some { tokens, lastRefill := nowMs }),
        { tokens, lastRefill := nowMs })
    else (buckets, existing)

def rateLimiter (buckets : Buckets) (key : String) (nowMs : ℚ) : Buckets × Admission :=
  let (buckets, bucket) := rl.getOrRefillBucket buckets key nowMs
  if bucket.tokens ≥ 1 then
    (Function.update buckets key (some { bucket with tokens := bucket.tokens - 1 }), .next)
  else
    let tokensNeeded := 1 - bucket.tokens
    let msUntilNextToken := tokensNeeded / rl.refillTokensPerMs
    (buckets, .tooManyRequests (max 1 ⌈msUntilNextToken / 1000⌉))

structure Request where
  key : String
  nowMs : ℚ
  deriving DecidableEq, Repr

structure Decision extends Request where
  admission : Admission
  deriving DecidableEq, Repr

def step (buckets : Buckets) (r : Request) : Option Buckets :=
  some (rl.rateLimiter buckets r.key r.nowMs).1

def shown (buckets : Buckets) (r : Request) (_ : Buckets) : List Decision :=
  [{ r with admission := (rl.rateLimiter buckets r.key r.nowMs).2 }]

def decisions (reqs : List Request) : List Decision := trace rl.step rl.shown (fun _ => none) reqs

def Decision.reading (d : Decision) : Reading ℚ :=
  { now := d.nowMs, admitted := d.admission = .next }

/-- One key's requests, in order. -/
def readingsOf (l : List Decision) (key : String) : List (Reading ℚ) :=
  (l.filter (·.key = key)).map Decision.reading

end RateLimiter

end DeadLetter
