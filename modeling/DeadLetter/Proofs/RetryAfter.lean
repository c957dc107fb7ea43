import DeadLetter.Proofs.RateLimiter

/-!
# Retry-After, and what a rejected request costs

A request's answer is a function of its bucket as it finds it (`answer`), and while the clock runs
forward a rejected request leaves a bucket that later requests find the same. So what is answered
between one rejection and the key's next admission is read off the one bucket, which has a whole
token when the time to wait has passed and not a second before (`refill_admits_iff`); and a run
answers its requests as if others' requests, or requests it rejected, had not been made.
-/

namespace DeadLetter

open Transition TokenBucket

namespace RateLimiter

variable (rl : RateLimiter)

/-! ## One request -/

/-- How a request is answered that finds its bucket so. -/
def answer (found : Bucket ℚ) : Admission :=
  if found.tokens ≥ 1 then .next
  else .tooManyRequests (max 1 ⌈(1 - found.tokens) / rl.refillTokensPerMs / 1000⌉)

/-- The bucket that a key's request finds. -/
abbrev find (buckets : Buckets) (key : String) (nowMs : ℚ) : Bucket ℚ :=
  refilled rl.capacity rl.refillTokensPerMs (buckets key) nowMs

theorem rateLimiter_answer (buckets : Buckets) (key : String) (nowMs : ℚ) :
    rl.rateLimiter buckets key nowMs
      = (Function.update buckets key (some (rl.find buckets key nowMs).take),
        rl.answer (rl.find buckets key nowMs)) := by
  refine Prod.ext (rl.rateLimiter_eq buckets key nowMs).1 ?_
  simp only [rateLimiter, getOrRefillBucket_eq, answer]
  split_ifs <;> rfl

variable {rl}

theorem answer_next {found : Bucket ℚ} : rl.answer found = .next ↔ found.admits = true := by
  unfold answer Bucket.admits
  split_ifs with h <;> simpa using h

/-- A rejected request's wait is the seconds its bucket takes to a whole token, rounded up. -/
theorem answer_tooManyRequests {found : Bucket ℚ} {r : ℤ}
    (h : rl.answer found = .tooManyRequests r) :
    found.tokens < 1 ∧ 0 < r ∧ r = ⌈(1 - found.tokens) / rl.refillTokensPerMs / 1000⌉ := by
  unfold answer at h
  split_ifs at h with hlt
  have hpos : 0 < ⌈(1 - found.tokens) / rl.refillTokensPerMs / 1000⌉ :=
    Int.ceil_pos.2
      (div_pos (div_pos (sub_pos.2 (not_le.1 hlt)) rl.refillTokensPerMs_pos) (by norm_num))
  have hmax := max_eq_right (Int.add_one_le_of_lt hpos)
  rw [zero_add] at hmax
  rw [hmax] at h
  obtain rfl := Admission.tooManyRequests.inj h
  exact ⟨not_le.1 hlt, hpos, rfl⟩

/-- A bucket of a capacity of one token or more has a whole one when what it lacks has come in. -/
theorem refill_admits_iff (hc : 1 ≤ rl.capacity) {b : Bucket ℚ} (hb : b.tokens ≤ rl.capacity)
    {nowMs : ℚ} (h : b.lastRefill ≤ nowMs) :
    (b.refill rl.capacity rl.refillTokensPerMs nowMs).admits = true
      ↔ (1 - b.tokens) / rl.refillTokensPerMs ≤ nowMs - b.lastRefill := by
  rw [refill_of_le hb h, div_le_iff₀ rl.refillTokensPerMs_pos, sub_le_iff_le_add']
  simp only [Bucket.admits, le_min_iff, hc, true_and, decide_eq_true_eq]

/-! ## A run of requests -/

variable (rl) in
/-- The buckets that a request leaves. -/
abbrev after (buckets : Buckets) (r : Request) : Buckets :=
  Function.update buckets r.key (some (rl.find buckets r.key r.nowMs).take)

theorem decisions_cons (buckets : Buckets) (r : Request) (reqs : List Request) :
    trace rl.step rl.shown buckets (r :: reqs)
      = { r with admission := rl.answer (rl.find buckets r.key r.nowMs) }
        :: trace rl.step rl.shown (rl.after buckets r) reqs := by
  simp only [trace, step, shown, rateLimiter_answer, List.singleton_append]

theorem decisions_toRequest : ∀ (reqs : List Request) (buckets : Buckets),
    (trace rl.step rl.shown buckets reqs).map (·.toRequest) = reqs
  | [], _ => rfl
  | r :: reqs, buckets => by rw [decisions_cons, List.map_cons, decisions_toRequest reqs]

/-- The clock never goes back between two requests. -/
abbrev Forward (reqs : List Request) : Prop := reqs.Pairwise fun r r' => r.nowMs ≤ r'.nowMs

variable (rl) in
/-- No bucket is over the capacity, or was refilled after `nowMs`. -/
def AllSettled (nowMs : ℚ) (buckets : Buckets) : Prop :=
  ∀ key, Settled rl.capacity nowMs (buckets key)

theorem AllSettled.after {buckets : Buckets} {nowMs : ℚ} {r : Request}
    (h : AllSettled rl nowMs buckets) (hr : nowMs ≤ r.nowMs) :
    AllSettled rl r.nowMs (rl.after buckets r) := by
  intro key
  by_cases hk : key = r.key
  · subst hk
    rw [RateLimiter.after, Function.update_self]
    exact ((h r.key).mono hr).take
  · rw [RateLimiter.after, Function.update_of_ne hk]
    exact (h key).mono hr

/-- A request leaves a key's bucket as it was to later requests, if it is another key's or is
rejected. -/
theorem alike_after {buckets : Buckets} {nowMs : ℚ} {r : Request} {key : String}
    {ob : Option (Bucket ℚ)} (h : AllSettled rl nowMs buckets)
    (ha : Alike rl.capacity rl.refillTokensPerMs nowMs (buckets key) ob) (hr : nowMs ≤ r.nowMs)
    (hno : r.key = key → rl.answer (rl.find buckets r.key r.nowMs) ≠ .next) :
    Alike rl.capacity rl.refillTokensPerMs r.nowMs (rl.after buckets r key) ob := by
  by_cases hk : key = r.key
  · subst hk
    have hrej : (rl.find buckets r.key r.nowMs).admits = false :=
      Bool.eq_false_iff.2 (answer_next.not.1 (hno rfl))
    rw [RateLimiter.after, Function.update_self]
    intro t ht
    rw [((h r.key).mono hr).alike rl.refillTokensPerMs_pos.le hrej t ht, ha t (hr.trans ht)]
  · rw [RateLimiter.after, Function.update_of_ne hk]
    exact ha.mono hr

/-- Until one is admitted, a key's requests are answered as the one bucket they all find. -/
theorem answered_as {key : String} {b : Bucket ℚ} : ∀ {reqs : List Request} {buckets : Buckets}
    {nowMs : ℚ} {between after : List Decision} {e : Decision}, AllSettled rl nowMs buckets →
      Alike rl.capacity rl.refillTokensPerMs nowMs (buckets key) (some b) →
      Forward reqs → (∀ r ∈ reqs, nowMs ≤ r.nowMs) →
      trace rl.step rl.shown buckets reqs = between ++ e :: after →
      (∀ c ∈ between, c.key = key → c.admission ≠ .next) → e.key = key →
      e.admission = rl.answer (b.refill rl.capacity rl.refillTokensPerMs e.nowMs)
  | [], _, _, between, _, _, _, _, _, _, hl, _, _ => by cases between <;> cases hl
  | r :: reqs, buckets, nowMs, between, after, e, hs, ha, hf, hnow, hl, hno, hk => by
    have hr : nowMs ≤ r.nowMs := hnow r (by simp)
    rw [decisions_cons] at hl
    rcases between with _ | ⟨c, between⟩
    · obtain ⟨rfl, rfl⟩ := List.cons.inj hl
      subst hk
      exact congrArg rl.answer (ha r.nowMs hr)
    · rw [List.cons_append] at hl
      obtain ⟨rfl, htl⟩ := List.cons.inj hl
      exact answered_as (hs.after hr) (alike_after hs ha hr (hno _ List.mem_cons_self))
        (List.pairwise_cons.1 hf).2 (List.pairwise_cons.1 hf).1 htl
        (fun c hc => hno c (by simp [hc])) hk

/-- While the one bucket has no whole token, the key's requests are all rejected. -/
theorem rejected_until {key : String} {b : Bucket ℚ} {until_ : ℚ}
    (hb : ∀ t, t ≤ until_ → (b.refill rl.capacity rl.refillTokensPerMs t).admits = false) :
    ∀ {reqs : List Request} {buckets : Buckets} {nowMs : ℚ}, AllSettled rl nowMs buckets →
      Alike rl.capacity rl.refillTokensPerMs nowMs (buckets key) (some b) →
      Forward reqs → (∀ r ∈ reqs, nowMs ≤ r.nowMs) →
      ∀ c ∈ trace rl.step rl.shown buckets reqs, c.key = key → c.nowMs ≤ until_ →
        c.admission ≠ .next
  | [], _, _, _, _, _, _, c, hc => by simp [trace] at hc
  | r :: reqs, buckets, nowMs, hs, ha, hf, hnow, c, hc => by
    have hr : nowMs ≤ r.nowMs := hnow r (by simp)
    have hno : r.key = key → r.nowMs ≤ until_ →
        rl.answer (rl.find buckets r.key r.nowMs) ≠ .next := by
      rintro rfl hu
      rw [Ne, answer_next, find, ha r.nowMs hr]
      exact Bool.eq_false_iff.1 (hb r.nowMs hu)
    rw [decisions_cons, List.mem_cons] at hc
    rcases hc with rfl | hc
    · exact hno
    · intro hk hu
      have hle : r.nowMs ≤ c.nowMs := by
        refine (List.pairwise_cons.1 hf).1 c.toRequest ?_
        rw [← decisions_toRequest reqs (rl.after buckets r)]
        exact List.mem_map_of_mem hc
      exact rejected_until hb (hs.after hr) (alike_after hs ha hr fun h => hno h (hle.trans hu))
        (List.pairwise_cons.1 hf).2 (List.pairwise_cons.1 hf).1 c hc hk hu

/-- From one bucket for each of some keys, and from another that they find the same, the run without
some rejected requests and without other keys' requests answers the rest as the full run does. -/
theorem decisions_thinned {S : String → Prop} : ∀ {reqs : List Request} {buckets buckets' : Buckets}
    {nowMs : ℚ} {kept : List Decision}, AllSettled rl nowMs buckets →
      (∀ key, S key → Alike rl.capacity rl.refillTokensPerMs nowMs (buckets key) (buckets' key)) →
      Forward reqs → (∀ r ∈ reqs, nowMs ≤ r.nowMs) →
      Thinned (fun d => S d.key → d.admission ≠ .next) (trace rl.step rl.shown buckets reqs) kept →
      (∀ d ∈ kept, S d.key) →
      trace rl.step rl.shown buckets' (kept.map (·.toRequest)) = kept
  | [], _, _, _, _, _, _, _, _, .nil, _ => rfl
  | r :: reqs, buckets, buckets', nowMs, kept, hs, ha, hf, hnow, ht, hS => by
    have hr : nowMs ≤ r.nowMs := hnow r (by simp)
    have hf' := List.pairwise_cons.1 hf
    rw [decisions_cons] at ht
    rcases ht with _ | ⟨_, ht⟩ | ⟨ht, hdrop⟩
    · have hfind : rl.find buckets r.key r.nowMs = rl.find buckets' r.key r.nowMs :=
        ha r.key (hS _ List.mem_cons_self) r.nowMs hr
      rw [List.map_cons, decisions_cons, hfind]
      refine congrArg _ (decisions_thinned (hs.after hr) (fun key hk => ?_) hf'.2 hf'.1 ht
        fun d hd => hS d (List.mem_cons_of_mem _ hd))
      by_cases hkey : key = r.key
      · subst hkey
        rw [RateLimiter.after, RateLimiter.after, Function.update_self, Function.update_self, hfind]
        exact fun _ _ => rfl
      · rw [RateLimiter.after, RateLimiter.after, Function.update_of_ne hkey,
          Function.update_of_ne hkey]
        exact (ha key hk).mono hr
    · exact decisions_thinned (hs.after hr)
        (fun key hk => alike_after hs (ha key hk) hr fun h => hdrop (h ▸ hk)) hf'.2 hf'.1 ht hS

/-! ## From the first request on -/

theorem one_le_capacity {capacity windowSeconds : ℤ}
    (h : createRateLimiter capacity windowSeconds = .ok rl) : 1 ≤ rl.capacity := by
  unfold createRateLimiter at h
  split_ifs at h with hc hw
  rw [← Except.ok.inj h]
  have hpos : 0 < capacity := by exact_mod_cast not_le.1 hc
  have hone : (1 : ℚ) ≤ capacity := by exact_mod_cast hpos
  exact hone

theorem exists_le_nowMs {reqs : List Request} (hf : Forward reqs) :
    ∃ nowMs, ∀ r ∈ reqs, nowMs ≤ r.nowMs := by
  cases reqs with
  | nil => exact ⟨0, by simp⟩
  | cons r reqs => exact ⟨r.nowMs, List.forall_mem_cons.2 ⟨le_rfl, (List.pairwise_cons.1 hf).1⟩⟩

theorem allSettled_start (nowMs : ℚ) : AllSettled rl nowMs fun _ => none := by
  intro key b hb
  cases hb

/-- A run cut before one of its requests goes on from settled buckets. -/
theorem decisions_split : ∀ {reqs : List Request} {buckets : Buckets} {nowMs : ℚ}
    {before rest : List Decision} {d : Decision}, AllSettled rl nowMs buckets → Forward reqs →
      (∀ r ∈ reqs, nowMs ≤ r.nowMs) → trace rl.step rl.shown buckets reqs = before ++ d :: rest →
      ∃ buckets' nowMs' reqs', AllSettled rl nowMs' buckets' ∧ nowMs' ≤ d.nowMs
        ∧ Forward reqs' ∧ (∀ r ∈ reqs', d.nowMs ≤ r.nowMs)
        ∧ d.admission = rl.answer (rl.find buckets' d.key d.nowMs)
        ∧ trace rl.step rl.shown (rl.after buckets' d.toRequest) reqs' = rest
  | [], _, _, before, _, _, _, _, _, hl => by cases before <;> cases hl
  | r :: reqs, buckets, nowMs, before, rest, d, hs, hf, hnow, hl => by
    have hr : nowMs ≤ r.nowMs := hnow r (by simp)
    have hf' := List.pairwise_cons.1 hf
    rw [decisions_cons] at hl
    rcases before with _ | ⟨c, before⟩
    · obtain ⟨rfl, rfl⟩ := List.cons.inj hl
      exact ⟨buckets, nowMs, reqs, hs, hr, hf'.2, hf'.1, rfl, rfl⟩
    · rw [List.cons_append] at hl
      exact decisions_split (hs.after hr) hf'.2 hf'.1 (List.cons.inj hl).2

/-- In any run on a clock that does not go back, a key that is rejected with a wait of `r` seconds
is rejected again up to a second before that, and admitted from then on, unless it was meanwhile. -/
theorem retryAfter_exact (capacity windowSeconds : ℤ) (rl : RateLimiter)
    (hrl : createRateLimiter capacity windowSeconds = .ok rl) (reqs : List Request)
    (hclock : Forward reqs) (before between after : List Decision) (d e : Decision) (r : ℤ)
    (hl : rl.decisions reqs = before ++ d :: (between ++ e :: after))
    (hd : d.admission = .tooManyRequests r) (hk : e.key = d.key) :
    (e.nowMs ≤ d.nowMs + 1000 * (r - 1) → e.admission ≠ .next)
      ∧ (d.nowMs + 1000 * r ≤ e.nowMs →
        (∀ c ∈ between, c.key = d.key → c.admission ≠ .next) → e.admission = .next) := by
  obtain ⟨nowMs, hnow⟩ := exists_le_nowMs hclock
  obtain ⟨buckets, nowMs, reqs, hs, hle, hf, hnow, hans, htl⟩ :=
    decisions_split (allSettled_start nowMs) hclock hnow hl
  rw [hd] at hans
  obtain ⟨hlt, hpos, hr⟩ := answer_tooManyRequests hans.symm
  have hc := one_le_capacity hrl
  set b := rl.find buckets d.key d.nowMs with hb
  have hcap : b.tokens ≤ rl.capacity := ((hs d.key).mono hle).refilled_le
  have hlast : b.lastRefill = d.nowMs := ((hs d.key).mono hle).refilled_lastRefill
  have hbucket : rl.after buckets d.toRequest d.key = some b := by
    have hno : b.admits = false := by simpa [Bucket.admits] using hlt
    rw [RateLimiter.after, Function.update_self, ← hb, Bucket.take, hno]
    rfl
  have hs' : AllSettled rl d.nowMs (rl.after buckets d.toRequest) := hs.after hle
  have ha : Alike rl.capacity rl.refillTokensPerMs d.nowMs (rl.after buckets d.toRequest d.key)
      (some b) := by
    rw [hbucket]
    exact fun _ _ => rfl
  refine ⟨fun hsoon => ?_, fun hlate hno => ?_⟩
  · have hbefore : ∀ t, t ≤ d.nowMs + 1000 * (r - 1) →
        (b.refill rl.capacity rl.refillTokensPerMs t).admits = false := by
      intro t ht
      rcases le_total d.nowMs t with hdt | hdt
      · rw [← hlast] at hdt
        rw [Bool.eq_false_iff, Ne, refill_admits_iff hc hcap hdt, not_le, hlast]
        have := Int.ceil_lt_add_one ((1 - b.tokens) / rl.refillTokensPerMs / 1000)
        rw [← hr] at this
        linarith
      · rw [Bucket.refill, if_neg (by linarith)]
        simpa [Bucket.admits] using hlt
    exact rejected_until hbefore hs' ha hf hnow e (by simp [htl]) hk hsoon
  · have hwait := Int.le_ceil ((1 - b.tokens) / rl.refillTokensPerMs / 1000)
    rw [← hr] at hwait
    have hr0 : (0 : ℚ) < r := by exact_mod_cast hpos
    rw [answered_as hs' ha hf hnow htl hno hk, answer_next,
      refill_admits_iff hc hcap (by linarith)]
    linarith

/-- A token every two seconds. -/
def oneInTwo : RateLimiter := ⟨1, 2, twoASecond.windowSeconds_pos, twoASecond.capacity_pos⟩

/-- The request rejected at 500 asks for two seconds: the next is rejected a second later, and the
one after it is admitted in two. -/
def impatient : List Request :=
  [⟨"a", 0⟩, ⟨"a", 500⟩, ⟨"b", 1000⟩, ⟨"a", 1500⟩, ⟨"b", 1500⟩, ⟨"a", 2500⟩]

theorem retryAfter_exact_impatient : ∃ early late rest,
    oneInTwo.decisions impatient = ⟨⟨"a", 0⟩, .next⟩ :: ⟨⟨"a", 500⟩, .tooManyRequests 2⟩
        :: ⟨⟨"b", 1000⟩, .next⟩ :: early :: rest ++ [late]
      ∧ early.nowMs = 1500 ∧ early.admission ≠ .next
      ∧ late.nowMs = 2500 ∧ late.admission = .next := by
  have hl : oneInTwo.decisions impatient = [⟨⟨"a", 0⟩, .next⟩] ++ ⟨⟨"a", 500⟩, .tooManyRequests 2⟩
      :: ([⟨⟨"b", 1000⟩, .next⟩] ++ ⟨⟨"a", 1500⟩, .tooManyRequests 1⟩
        :: [⟨⟨"b", 1500⟩, .tooManyRequests 2⟩, ⟨⟨"a", 2500⟩, .next⟩]) := by
    decide +kernel
  have hclock : Forward impatient := by decide +kernel
  have hearly := (retryAfter_exact 1 2 oneInTwo rfl impatient hclock _ _ _ _ _ 2 hl rfl rfl).1
    (by norm_num)
  have hlate := (retryAfter_exact 1 2 oneInTwo rfl impatient hclock [⟨⟨"a", 0⟩, .next⟩]
    [⟨⟨"b", 1000⟩, .next⟩, ⟨⟨"a", 1500⟩, .tooManyRequests 1⟩, ⟨⟨"b", 1500⟩, .tooManyRequests 2⟩] []
    _ _ 2 hl rfl rfl).2 (by norm_num) (by decide)
  exact ⟨_, _, [_], hl, rfl, hearly, rfl, hlate⟩

/-- In any run on a clock that does not go back, a key's requests are answered as in the run
without the other keys' requests, and a run without any of the key's rejected requests answers the
rest as the full run does. -/
theorem rejections_cost_nothing (rl : RateLimiter) (reqs : List Request) (hclock : Forward reqs)
    (key : String) :
    rl.decisions (reqs.filter (·.key = key)) = (rl.decisions reqs).filter (·.key = key)
      ∧ ∀ kept, Thinned (fun d => d.key = key ∧ d.admission ≠ .next) (rl.decisions reqs) kept →
        rl.decisions (kept.map (·.toRequest)) = kept := by
  obtain ⟨nowMs, hnow⟩ := exists_le_nowMs hclock
  have hthin : ∀ (S : String → Prop) kept,
      Thinned (fun d => S d.key → d.admission ≠ .next) (rl.decisions reqs) kept →
      (∀ d ∈ kept, S d.key) → rl.decisions (kept.map (·.toRequest)) = kept := fun S kept =>
    decisions_thinned (allSettled_start nowMs) (fun _ _ _ _ => rfl) hclock hnow
  refine ⟨?_, fun kept h => hthin (fun _ => True) kept (h.mono fun d hd _ => hd.2) (by simp)⟩
  have hfilter := hthin (· = key) _
    ((thinned_filter (fun d : Decision => decide (d.key = key)) (rl.decisions reqs)).mono
      fun d hd hk => absurd hk (of_decide_eq_false hd))
    fun d hd => of_decide_eq_true (List.mem_filter.1 hd).2
  have hmap : ((rl.decisions reqs).filter (·.key = key)).map (·.toRequest)
      = reqs.filter (·.key = key) := by
    have hreqs : (rl.decisions reqs).map (·.toRequest) = reqs := decisions_toRequest reqs _
    conv_rhs => rw [← hreqs]
    rw [List.filter_map]
    rfl
  rw [← hmap, hfilter]

theorem rejections_cost_nothing_impatient :
    oneInTwo.decisions (impatient.filter (·.key = "a"))
        = (oneInTwo.decisions impatient).filter (·.key = "a")
      ∧ oneInTwo.decisions [⟨"a", 0⟩, ⟨"b", 1000⟩, ⟨"a", 1500⟩, ⟨"b", 1500⟩, ⟨"a", 2500⟩]
        = [⟨⟨"a", 0⟩, .next⟩, ⟨⟨"b", 1000⟩, .next⟩, ⟨⟨"a", 1500⟩, .tooManyRequests 1⟩,
          ⟨⟨"b", 1500⟩, .tooManyRequests 2⟩, ⟨⟨"a", 2500⟩, .next⟩] := by
  have hl : oneInTwo.decisions impatient = [⟨⟨"a", 0⟩, .next⟩, ⟨⟨"a", 500⟩, .tooManyRequests 2⟩,
      ⟨⟨"b", 1000⟩, .next⟩, ⟨⟨"a", 1500⟩, .tooManyRequests 1⟩, ⟨⟨"b", 1500⟩, .tooManyRequests 2⟩,
      ⟨⟨"a", 2500⟩, .next⟩] := by
    decide +kernel
  obtain ⟨hothers, hrejected⟩ :=
    rejections_cost_nothing oneInTwo impatient (by decide +kernel) "a"
  refine ⟨hothers, hrejected [⟨⟨"a", 0⟩, .next⟩, ⟨⟨"b", 1000⟩, .next⟩,
    ⟨⟨"a", 1500⟩, .tooManyRequests 1⟩, ⟨⟨"b", 1500⟩, .tooManyRequests 2⟩, ⟨⟨"a", 2500⟩, .next⟩] ?_⟩
  rw [hl]
  exact .keep _ (.drop (.keep _ (.keep _ (.keep _ (.keep _ .nil)))) ⟨rfl, by decide⟩)

end RateLimiter

end DeadLetter
