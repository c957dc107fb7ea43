import Mathlib.Algebra.Order.Ring.Defs
import Mathlib.Tactic.Linarith
import DeadLetter.Transition

/-!
# Token buckets

A bucket refills with time, up to its capacity, and a request it admits takes one token. A reading
of the clock that is not past the last refill refills nothing. So over a stretch of requests, what
is admitted and what is left is at most the capacity and what the clock's latest reading has come
to since the first of them (`Bounded`), whatever the clock does between. While the clock runs
forward, refilling twice is refilling once, so a request that takes nothing leaves a bucket that
every later request finds the same (`Alike`).
-/

namespace TokenBucket

open Transition

variable {K : Type*} [CommRing K] [LinearOrder K]

structure Bucket (K : Type*) where
  tokens : K
  lastRefill : K
  deriving DecidableEq, Repr

/-- A request's reading of the clock, and whether it was admitted. -/
structure Reading (K : Type*) where
  now : K
  admitted : Bool
  deriving DecidableEq, Repr

def Bucket.refill (capacity rate : K) (b : Bucket K) (now : K) : Bucket K :=
  if 0 < now - b.lastRefill then
    { tokens := min capacity (b.tokens + (now - b.lastRefill) * rate), lastRefill := now }
  else b

/-- The bucket as a request finds it: the first finds it full. -/
def refilled (capacity rate : K) : Option (Bucket K) → K → Bucket K
  | none, now => { tokens := capacity, lastRefill := now }
  | some b, now => b.refill capacity rate now

def Bucket.admits (b : Bucket K) : Bool := 1 ≤ b.tokens

def Bucket.take (b : Bucket K) : Bucket K :=
  if b.admits then { b with tokens := b.tokens - 1 } else b

/-- The largest reading of the clock. -/
def latest (l : List (Reading K)) : K := (l.map (·.now)).max?.getD 0

def admitted (l : List (Reading K)) : ℕ := l.countP (·.admitted)

theorem latest_append {l : List (Reading K)} (hl : l ≠ []) (d : Reading K) :
    latest (l ++ [d]) = max (latest l) d.now := by
  cases l with
  | nil => exact absurd rfl hl
  | cons c l =>
    simp only [latest, List.map_append, List.map_cons, List.map_nil, List.cons_append,
      List.max?_cons', Option.getD_some, List.foldl_append, List.foldl_cons, List.foldl_nil]

/-! ## One request -/

variable {capacity rate : K} {b : Bucket K}

theorem refill_le (hb : b.tokens ≤ capacity) (now : K) :
    (b.refill capacity rate now).tokens ≤ capacity := by
  unfold Bucket.refill
  split_ifs
  · exact min_le_left _ _
  · exact hb

/-- A refill adds what came in the time it moves the bucket on by, or less. -/
theorem refill_tokens_le (now : K) : (b.refill capacity rate now).tokens
    ≤ b.tokens + ((b.refill capacity rate now).lastRefill - b.lastRefill) * rate := by
  unfold Bucket.refill
  split_ifs
  · exact min_le_right _ _
  · simp

theorem take_tokens (now : K) :
    b.take.tokens + admitted [{ now, admitted := b.admits }] = b.tokens := by
  cases h : b.admits <;> simp [Bucket.take, h, admitted]

theorem take_lastRefill : b.take.lastRefill = b.lastRefill := by
  unfold Bucket.take
  split_ifs <;> rfl

variable [IsStrictOrderedRing K]

theorem refill_nonneg (hc : 0 ≤ capacity) (hr : 0 ≤ rate) (hb : 0 ≤ b.tokens) (now : K) :
    0 ≤ (b.refill capacity rate now).tokens := by
  unfold Bucket.refill
  split_ifs with h
  · exact le_min hc (add_nonneg hb (mul_nonneg h.le hr))
  · exact hb

theorem refill_lastRefill (now : K) :
    (b.refill capacity rate now).lastRefill = max b.lastRefill now := by
  unfold Bucket.refill
  split_ifs with h
  · exact (max_eq_right (sub_pos.1 h).le).symm
  · exact (max_eq_left (sub_nonpos.1 (not_lt.1 h))).symm

theorem take_nonneg (hb : 0 ≤ b.tokens) : 0 ≤ b.take.tokens := by
  unfold Bucket.take
  split_ifs with h
  · exact sub_nonneg.2 (by simpa [Bucket.admits] using h)
  · exact hb

theorem take_le : b.take.tokens ≤ b.tokens := by
  unfold Bucket.take
  split_ifs
  · exact sub_le_self _ zero_le_one
  · exact le_rfl

/-! ## A run of requests -/

/-- What a stretch of a log admitted is within the capacity and what the clock's latest reading has
come to since the first request of the stretch. -/
def Bounded (capacity rate : K) (l : List (Reading K)) : Prop :=
  ∀ l₁ d l₂ l₃, l = l₁ ++ d :: (l₂ ++ l₃) → (admitted (d :: l₂) : K)
    ≤ capacity + (latest (l₁ ++ d :: l₂) - latest (l₁ ++ [d])) * rate

/-- The bucket that a log of requests leaves. What it holds counts against the bound of every
stretch that has not ended. -/
structure Amortised (capacity rate : K) (l : List (Reading K)) (b : Bucket K) : Prop where
  ne_nil : l ≠ []
  lastRefill : b.lastRefill = latest l
  nonneg : 0 ≤ b.tokens
  le : b.tokens ≤ capacity
  spent : ∀ l₁ d l₂, l = l₁ ++ d :: l₂ →
    b.tokens + admitted (d :: l₂) ≤ capacity + (latest l - latest (l₁ ++ [d])) * rate
  bounded : Bounded capacity rate l

omit [IsStrictOrderedRing K] in
theorem Bounded.append {l : List (Reading K)} {d : Reading K} (h : Bounded capacity rate l)
    (hd : ∀ l₁ c l₂, l ++ [d] = l₁ ++ c :: l₂ → (admitted (c :: l₂) : K)
      ≤ capacity + (latest (l ++ [d]) - latest (l₁ ++ [c])) * rate) :
    Bounded capacity rate (l ++ [d]) := by
  intro l₁ c l₂ l₃ hl
  rcases List.eq_nil_or_concat l₃ with rfl | ⟨l₄, e, rfl⟩
  · rw [List.append_nil] at hl
    rw [← hl]
    exact hd l₁ c l₂ hl
  · rw [List.concat_eq_append, ← List.append_assoc, ← List.cons_append, ← List.append_assoc] at hl
    exact h l₁ c l₂ l₄ (List.append_inj' hl rfl).1

/-- A request takes from the bucket as it found it. -/
theorem Amortised.of_take {l : List (Reading K)} {now : K} (hb : Bounded capacity rate l)
    (hl : b.lastRefill = latest (l ++ [{ now, admitted := b.admits }]))
    (h₀ : 0 ≤ b.tokens) (hc : b.tokens ≤ capacity)
    (hs : ∀ l₁ d l₂, l = l₁ ++ d :: l₂ →
      b.tokens + admitted (d :: l₂) ≤ capacity + (b.lastRefill - latest (l₁ ++ [d])) * rate) :
    Amortised capacity rate (l ++ [{ now, admitted := b.admits }]) b.take := by
  have hspent : ∀ l₁ d l₂, l ++ [{ now, admitted := b.admits }] = l₁ ++ d :: l₂ →
      b.take.tokens + admitted (d :: l₂)
        ≤ capacity
          + (latest (l ++ [{ now, admitted := b.admits }]) - latest (l₁ ++ [d])) * rate := by
    intro l₁ d l₂ h
    have ht : b.take.tokens + admitted [{ now, admitted := b.admits }] = b.tokens :=
      take_tokens now
    rcases concat_eq_append_cons h with ⟨rfl, rfl, rfl⟩ | ⟨l₃, rfl, hl₃⟩
    · rw [ht, sub_self, zero_mul, add_zero]
      exact hc
    · have hadd : admitted (d :: (l₃ ++ [{ now, admitted := b.admits }]))
          = admitted (d :: l₃) + admitted [{ now, admitted := b.admits }] := by
        rw [← List.cons_append]
        exact List.countP_append
      rw [hadd, Nat.cast_add, ← hl]
      have := hs l₁ d l₃ hl₃
      linarith
  have h₁ := take_nonneg h₀
  refine ⟨by simp, take_lastRefill.trans hl, h₁, take_le.trans hc, hspent, hb.append ?_⟩
  intro l₁ c l₂ h
  have := hspent l₁ c l₂ h
  linarith

theorem Amortised.step (hc : 0 ≤ capacity) (hr : 0 ≤ rate) {l : List (Reading K)}
    (h : Amortised capacity rate l b) (now : K) :
    Amortised capacity rate (l ++ [{ now, admitted := (b.refill capacity rate now).admits }])
      (b.refill capacity rate now).take := by
  have hl : (b.refill capacity rate now).lastRefill = max b.lastRefill now := refill_lastRefill now
  have ht : (b.refill capacity rate now).tokens
      ≤ b.tokens + ((b.refill capacity rate now).lastRefill - b.lastRefill) * rate :=
    refill_tokens_le now
  refine .of_take h.bounded ?_ (refill_nonneg hc hr h.nonneg now) (refill_le h.le now)
    fun l₁ d l₂ hd => ?_
  · rw [hl, latest_append h.ne_nil, h.lastRefill]
  · have := h.spent l₁ d l₂ hd
    rw [← h.lastRefill] at this
    linarith

theorem Amortised.first (hc : 0 ≤ capacity) (now : K) :
    Amortised capacity rate
      [{ now, admitted := Bucket.admits { tokens := capacity, lastRefill := now } }]
      (Bucket.take { tokens := capacity, lastRefill := now }) :=
  .of_take (l := []) (by intro l₁ d l₂ l₃ h; simp at h) rfl hc le_rfl
    fun l₁ d l₂ h => by simp at h

/-- A log of requests, and the bucket that it leaves. -/
def Leaves (capacity rate : K) (l : List (Reading K)) : Option (Bucket K) → Prop
  | none => l = []
  | some b => Amortised capacity rate l b

theorem Leaves.step (hc : 0 ≤ capacity) (hr : 0 ≤ rate) {l : List (Reading K)}
    {ob : Option (Bucket K)} (h : Leaves capacity rate l ob) (now : K) :
    Leaves capacity rate (l ++ [{ now, admitted := (refilled capacity rate ob now).admits }])
      (some (refilled capacity rate ob now).take) := by
  rcases ob with _ | b
  · obtain rfl : l = [] := h
    exact .first hc now
  · exact Amortised.step hc hr h now

omit [IsStrictOrderedRing K] in
theorem Leaves.bounded {l : List (Reading K)} {ob : Option (Bucket K)}
    (h : Leaves capacity rate l ob) : Bounded capacity rate l := by
  rcases ob with _ | b
  · obtain rfl : l = [] := h
    intro l₁ d l₂ l₃ hl
    simp at hl
  · exact Amortised.bounded h

/-! ## Refills while the clock runs forward -/

theorem refill_of_le (hb : b.tokens ≤ capacity) {now : K} (h : b.lastRefill ≤ now) :
    b.refill capacity rate now
      = ⟨min capacity (b.tokens + (now - b.lastRefill) * rate), now⟩ := by
  unfold Bucket.refill
  split_ifs with hnow
  · rfl
  · obtain rfl : b.lastRefill = now := le_antisymm h (sub_nonpos.1 (not_lt.1 hnow))
    rw [sub_self, zero_mul, add_zero, min_eq_right hb]

theorem refill_refill (hr : 0 ≤ rate) (hb : b.tokens ≤ capacity) {s t : K}
    (hs : b.lastRefill ≤ s) (hst : s ≤ t) :
    (b.refill capacity rate s).refill capacity rate t = b.refill capacity rate t := by
  have hadd : 0 ≤ (t - s) * rate := mul_nonneg (sub_nonneg.2 hst) hr
  rw [refill_of_le (refill_le hb s) ((refill_lastRefill s).trans_le (max_le (hs.trans hst) hst)),
    refill_of_le hb hs, refill_of_le hb (hs.trans hst), min_add, ← min_assoc,
    min_eq_left (le_add_of_nonneg_right hadd), add_assoc, ← add_mul, sub_add_sub_cancel']

/-- The bucket, if there is one, is within its capacity and was not refilled after `now`. -/
def Settled (capacity now : K) (ob : Option (Bucket K)) : Prop :=
  ∀ b, ob = some b → b.tokens ≤ capacity ∧ b.lastRefill ≤ now

omit [CommRing K] [IsStrictOrderedRing K] in
theorem Settled.mono {ob : Option (Bucket K)} {s t : K} (h : Settled capacity s ob) (hst : s ≤ t) :
    Settled capacity t ob :=
  fun b hb => ⟨(h b hb).1, (h b hb).2.trans hst⟩

theorem Settled.refilled_lastRefill {ob : Option (Bucket K)} {now : K}
    (h : Settled capacity now ob) : (refilled capacity rate ob now).lastRefill = now := by
  rcases ob with _ | b
  · rfl
  · exact (refill_lastRefill now).trans (max_eq_right (h b rfl).2)

omit [IsStrictOrderedRing K] in
theorem Settled.refilled_le {ob : Option (Bucket K)} {now : K} (h : Settled capacity now ob) :
    (refilled capacity rate ob now).tokens ≤ capacity := by
  rcases ob with _ | b
  · exact le_rfl
  · exact refill_le (h b rfl).1 now

theorem Settled.take {ob : Option (Bucket K)} {now : K} (h : Settled capacity now ob) :
    Settled capacity now (some (refilled capacity rate ob now).take) := by
  intro c hc
  obtain rfl := Option.some.inj hc
  exact ⟨take_le.trans h.refilled_le, (take_lastRefill.trans h.refilled_lastRefill).le⟩

/-- Every request from `now` on finds the same bucket in both. -/
def Alike (capacity rate now : K) (ob ob' : Option (Bucket K)) : Prop :=
  ∀ t, now ≤ t → refilled capacity rate ob t = refilled capacity rate ob' t

omit [IsStrictOrderedRing K] in
theorem Alike.mono {ob ob' : Option (Bucket K)} {s t : K} (h : Alike capacity rate s ob ob')
    (hst : s ≤ t) : Alike capacity rate t ob ob' :=
  fun u hu => h u (hst.trans hu)

/-- A request that is not admitted costs its bucket nothing. -/
theorem Settled.alike (hr : 0 ≤ rate) {ob : Option (Bucket K)} {now : K}
    (h : Settled capacity now ob) (hno : (refilled capacity rate ob now).admits = false) :
    Alike capacity rate now (some (refilled capacity rate ob now).take) ob := by
  intro t ht
  have htake : (refilled capacity rate ob now).take = refilled capacity rate ob now := by
    simp [Bucket.take, hno]
  rw [htake]
  rcases ob with _ | b
  · have hadd : 0 ≤ (t - now) * rate := mul_nonneg (sub_nonneg.2 ht) hr
    have hfull : (⟨capacity, now⟩ : Bucket K).refill capacity rate t
        = ⟨min capacity (capacity + (t - now) * rate), t⟩ := refill_of_le le_rfl ht
    rw [min_eq_left (le_add_of_nonneg_right hadd)] at hfull
    exact hfull
  · exact refill_refill hr (h b rfl).1 (h b rfl).2 ht

end TokenBucket
