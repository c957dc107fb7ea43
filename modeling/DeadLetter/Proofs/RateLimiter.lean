import DeadLetter.RateLimiter

/-!
# Rate-limit admission

A request touches its own key's bucket only, and does with it what a request does with a token
bucket (`rateLimiter_eq`). So each bucket is as its key's requests leave it, and a block of one
key's requests is bounded as the library bounds it.
-/

namespace DeadLetter

open Transition TokenBucket

namespace RateLimiter

variable (rl : RateLimiter)

/-! ## One request -/

theorem refillTokensPerMs_pos : 0 < rl.refillTokensPerMs :=
  div_pos rl.capacity_pos (mul_pos rl.windowSeconds_pos (by norm_num))

theorem getOrRefillBucket_eq (buckets : Buckets) (key : String) (nowMs : ℚ) :
    rl.getOrRefillBucket buckets key nowMs
      = (Function.update buckets key
          (some (refilled rl.capacity rl.refillTokensPerMs (buckets key) nowMs)),
        refilled rl.capacity rl.refillTokensPerMs (buckets key) nowMs) := by
  unfold getOrRefillBucket
  rcases hb : buckets key with _ | b
  · rfl
  · simp only [refilled, Bucket.refill, gt_iff_lt]
    split_ifs
    · rfl
    · rw [← hb, Function.update_eq_self]

/-- A request refills its key's bucket and takes from it, and is admitted where that has a whole
token. -/
theorem rateLimiter_eq (buckets : Buckets) (key : String) (nowMs : ℚ) :
    let found := refilled rl.capacity rl.refillTokensPerMs (buckets key) nowMs
    (rl.rateLimiter buckets key nowMs).1 = Function.update buckets key (some found.take)
      ∧ ((rl.rateLimiter buckets key nowMs).2 = .next ↔ found.admits = true) := by
  simp only [rateLimiter, getOrRefillBucket_eq, Bucket.take, Bucket.admits, ge_iff_le,
    decide_eq_true_eq]
  split_ifs with h <;> simp [h]

/-! ## A run of requests -/

variable {rl}

/-- Every bucket is as its key's requests leave it. -/
def Inv (rl : RateLimiter) (l : List Decision) (buckets : Buckets) : Prop :=
  ∀ key, Leaves rl.capacity rl.refillTokensPerMs (readingsOf l key) (buckets key)

theorem readingsOf_shown (l : List Decision) (buckets buckets' : Buckets) (r : Request)
    (key : String) : readingsOf (l ++ rl.shown buckets r buckets') key
      = readingsOf l key ++ if key = r.key then [{
          now := r.nowMs
          admitted := (refilled rl.capacity rl.refillTokensPerMs (buckets key) r.nowMs).admits }]
        else [] := by
  rw [readingsOf, List.filter_append, List.map_append]
  congr 1
  split_ifs with hk
  · subst hk
    simp [shown, Decision.reading, (rl.rateLimiter_eq buckets r.key r.nowMs).2]
  · simp [shown, Ne.symm hk]

theorem Inv.step {l : List Decision} {buckets buckets' : Buckets} {r : Request}
    (hI : Inv rl l buckets) (h : rl.step buckets r = some buckets') :
    Inv rl (l ++ rl.shown buckets r buckets') buckets' := by
  intro key
  obtain rfl := Option.some.inj h
  rw [readingsOf_shown, (rl.rateLimiter_eq buckets r.key r.nowMs).1]
  by_cases hk : key = r.key
  · subst hk
    rw [if_pos rfl, Function.update_self]
    exact (hI r.key).step rl.capacity_pos.le rl.refillTokensPerMs_pos.le r.nowMs
  · rw [if_neg hk, List.append_nil, Function.update_of_ne hk]
    exact hI key

theorem inv_of_exec {reqs : List Request} {buckets : Buckets}
    (h : exec rl.step (fun _ => none) reqs = some buckets) :
    Inv rl (rl.decisions reqs) buckets :=
  exec_trace_inv (fun _ _ _ _ hI h => hI.step h) (fun _ => rfl) h

/-- In any run, every bucket's tokens are from 0 to the capacity, and what a block of one key's
requests was admitted is bounded by the capacity and by how far the clock's largest reading for
that key has moved since the block's first request. -/
theorem admission_bound (rl : RateLimiter) (reqs : List Request) (buckets : Buckets)
    (h : exec rl.step (fun _ => none) reqs = some buckets) :
    (∀ key bucket, buckets key = some bucket → 0 ≤ bucket.tokens ∧ bucket.tokens ≤ rl.capacity)
      ∧ ∀ key before first rest after,
        readingsOf (rl.decisions reqs) key = before ++ first :: (rest ++ after) →
        (admitted (first :: rest) : ℚ) ≤ rl.capacity
          + (latest (before ++ first :: rest) - latest (before ++ [first])) * rl.capacity
            / (rl.windowSeconds * 1000) := by
  have hI := inv_of_exec h
  refine ⟨fun key bucket hb => ?_, fun key before first rest after hl => ?_⟩
  · have := hI key
    rw [hb] at this
    exact ⟨Amortised.nonneg this, Amortised.le this⟩
  · rw [mul_div_assoc]
    exact (hI key).bounded before first rest after hl

/-- Two tokens a second: the clock goes back, and forward again past where it stood. -/
def twoASecond : RateLimiter := ⟨2, 1, by decide, by decide⟩

def backAndForth : List Request :=
  [⟨"a", 1000⟩, ⟨"a", 1000⟩, ⟨"b", 0⟩, ⟨"a", 1000⟩, ⟨"a", 0⟩, ⟨"a", 1500⟩, ⟨"a", 1500⟩]

theorem admission_bound_backAndForth : ∃ buckets l,
    exec twoASecond.step (fun _ => none) backAndForth = some buckets
      ∧ readingsOf (twoASecond.decisions backAndForth) "a" = ⟨1000, true⟩ :: (l ++ [⟨1500, false⟩])
      ∧ (∀ bucket, buckets "a" = some bucket → 0 ≤ bucket.tokens ∧ bucket.tokens ≤ 2)
      ∧ (admitted (⟨1000, true⟩ :: l) : ℚ)
        ≤ 2 + (latest (⟨1000, true⟩ :: l) - latest [⟨1000, true⟩]) * 2 / (1 * 1000) := by
  have hl : readingsOf (twoASecond.decisions backAndForth) "a"
      = ⟨1000, true⟩ :: ([⟨1000, true⟩, ⟨1000, false⟩, ⟨0, false⟩, ⟨1500, true⟩]
        ++ [⟨1500, false⟩]) := by
    decide +kernel
  obtain ⟨htokens, hbound⟩ := admission_bound twoASecond backAndForth _ rfl
  exact ⟨_, _, rfl, hl, htokens "a", hbound "a" [] _ _ _ hl⟩

end RateLimiter

end DeadLetter
