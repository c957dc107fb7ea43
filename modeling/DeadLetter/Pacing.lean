import Mathlib.Algebra.BigOperators.Intervals
import DeadLetter.Transition

/-!
# Paced attempts

A party makes attempts, each a delay after what it did before, and the delay grows with the
attempts since something last went right. So the attempts of a streak take the sum of their delays
at least, and where the delays reach a cap they are no more than the time allows at one for each
cap (`Spaced.count_le`).
-/

namespace Pacing

open Finset Transition

/-- Something goes right, or an attempt is made after another failure. -/
inductive Event
  | reset (time : ℕ)
  | attempt (time : ℕ)
  deriving DecidableEq, Repr

/-- When the attempts since the last reset began, when the last was made, and how many. -/
structure Streak where
  start : ℕ
  last : ℕ
  count : ℕ
  deriving DecidableEq, Repr

def Streak.next (s : Streak) : Event → Streak
  | .reset t => ⟨t, t, 0⟩
  | .attempt t => ⟨s.start, t, s.count + 1⟩

/-- The streak after these events, the first of which comes after a reset at 0. -/
def streak (l : List Event) : Streak := l.foldl Streak.next ⟨0, 0, 0⟩

/-- Each attempt comes its delay after what was before it. -/
def Spaced (delay : ℕ → ℕ) (l : List Event) : Prop :=
  ∀ l₁ t l₂, l = l₁ ++ .attempt t :: l₂ → (streak l₁).last + delay (streak l₁).count ≤ t

/-- `base`, then twice as long each time, up to a cap. -/
def doubling (base cap n : ℕ) : ℕ := min (base * 2 ^ n) cap

variable {delay : ℕ → ℕ} {l : List Event} {e : Event} {m c : ℕ}

theorem streak_append : streak (l ++ [e]) = (streak l).next e := by
  rw [streak, List.foldl_append]
  rfl

theorem spaced_nil : Spaced delay [] := fun _ _ _ h => by simp at h

theorem Spaced.append (h : Spaced delay l)
    (he : ∀ t, e = .attempt t → (streak l).last + delay (streak l).count ≤ t) :
    Spaced delay (l ++ [e]) := by
  intro l₁ t l₂ hl
  rcases concat_eq_append_cons hl with ⟨-, rfl, rfl⟩ | ⟨l₃, -, hl'⟩
  · exact he t rfl
  · exact h l₁ t l₃ hl'

theorem Spaced.left {l' : List Event} (h : Spaced delay (l ++ l')) : Spaced delay l :=
  fun l₁ t l₂ hl => h l₁ t (l₂ ++ l') (by rw [hl, List.append_assoc, List.cons_append])

/-- The attempts of a streak take the sum of their delays. -/
theorem Spaced.sum_le (h : Spaced delay l) :
    (streak l).start + ∑ i ∈ range (streak l).count, delay i ≤ (streak l).last := by
  induction l using List.reverseRecOn with
  | nil => simp [streak]
  | append_singleton l e ih =>
    rw [streak_append]
    rcases e with t | t
    · simp [Streak.next]
    · have ih := ih h.left
      have ht := h l t [] rfl
      simp only [Streak.next, sum_range_succ]
      omega

/-- So the next attempt comes at the end of all of them. -/
theorem Spaced.attempt_le (h : Spaced delay l) {l₁ l₂ : List Event} {t : ℕ}
    (hl : l = l₁ ++ .attempt t :: l₂) :
    (streak l₁).start + ∑ i ∈ range ((streak l₁).count + 1), delay i ≤ t := by
  subst hl
  have hs := h.left.sum_le
  have ht := h l₁ t l₂ rfl
  rw [sum_range_succ]
  omega

theorem sum_capped (hc : ∀ n, m ≤ n → delay n = c) (n : ℕ) :
    ∑ i ∈ range (m + n), delay i = ∑ i ∈ range m, delay i + n * c := by
  rw [sum_range_add]
  congr 1
  rw [sum_const_nat fun i _ => hc (m + i) (Nat.le_add_right m i), card_range]

/-- From the `m`-th on, attempts come no more than one in each cap. -/
theorem Spaced.count_le (h : Spaced delay l) (hc : ∀ n, m ≤ n → delay n = c) (hpos : 0 < c) :
    (streak l).count
      ≤ m + ((streak l).last - (streak l).start - ∑ i ∈ range m, delay i) / c := by
  rcases le_total (streak l).count m with hle | hle
  · exact hle.trans (Nat.le_add_right _ _)
  · obtain ⟨n, hn⟩ := Nat.exists_eq_add_of_le hle
    have hs := h.sum_le
    rw [hn, sum_capped hc] at hs
    rw [hn]
    exact Nat.add_le_add_left ((Nat.le_div_iff_mul_le hpos).2 (by omega)) m

theorem doubling_of_le {base cap m n : ℕ} (h : cap ≤ base * 2 ^ m) (hmn : m ≤ n) :
    doubling base cap n = cap :=
  min_eq_right (h.trans (Nat.mul_le_mul_left base (Nat.pow_le_pow_right (by omega) hmn)))

end Pacing
