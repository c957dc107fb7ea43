import Mathlib.Data.Int.Notation
import Mathlib.Data.List.Basic
import Mathlib.Tactic.Common
import DeadLetter.Transition

/-!
# Leases

A log grants keys and releases them. `holds` is when a key was last granted, if it has not been
released since; a log is `Spaced` when a key that is held is granted again only after a delay.
Then any two grants of a key are further apart than the delay, or a release of it stands between
them (`Spaced.apart`).
-/

namespace Lease

open Transition

variable {κ : Type*}

inductive Entry (κ : Type*)
  | grant (keys : List κ) (time : ℤ)
  | release (key : κ)

variable [DecidableEq κ]

/-- When key `k` is held since, after an entry. -/
def Entry.after (k : κ) (since : Option ℤ) : Entry κ → Option ℤ
  | .grant ks t => if k ∈ ks then some t else since
  | .release k' => if k' = k then none else since

/-- When key `k` was last granted, if it has not been released since. -/
def holds (k : κ) (l : List (Entry κ)) : Option ℤ := l.foldl (Entry.after k) none

/-- A key that is held is granted again only more than `d` later. -/
inductive Spaced (d : ℤ) : List (Entry κ) → Prop
  | nil : Spaced d []
  | grant {l : List (Entry κ)} {ks : List κ} {t : ℤ} (h : Spaced d l)
      (hk : ∀ k ∈ ks, ∀ s, holds k l = some s → s + d < t) : Spaced d (l ++ [.grant ks t])
  | release {l : List (Entry κ)} {k : κ} (h : Spaced d l) : Spaced d (l ++ [.release k])

@[simp] theorem holds_append (k : κ) (l : List (Entry κ)) (e : Entry κ) :
    holds k (l ++ [e]) = e.after k (holds k l) := by
  simp [holds]

/-- A key granted and not released since is held, from then on or from a later grant. -/
theorem Spaced.holds_of_grant {d : ℤ} (hd : 0 ≤ d) {l : List (Entry κ)} (h : Spaced d l) {k : κ} :
    ∀ {l₁ ks s l₂}, l = l₁ ++ .grant ks s :: l₂ → k ∈ ks → .release k ∉ l₂ →
      ∃ t, holds k l = some t ∧ s ≤ t := by
  induction h with
  | nil => intro l₁ ks s l₂ hl; simp at hl
  | @grant l ls t h hk ih =>
    intro l₁ ks s l₂ hl hks hrel
    rw [holds_append, Entry.after]
    rcases concat_eq_append_cons hl with ⟨rfl, hg, rfl⟩ | ⟨l₃, rfl, rfl⟩
    · obtain ⟨rfl, rfl⟩ : ks = ls ∧ s = t := by simpa using hg
      exact ⟨s, by rw [if_pos hks], Int.le_refl s⟩
    · obtain ⟨u, hu, hsu⟩ := ih rfl hks fun hm => hrel (List.mem_append_left _ hm)
      split_ifs with hls
      · have := hk k hls u hu
        exact ⟨t, rfl, by omega⟩
      · exact ⟨u, hu, hsu⟩
  | @release l k' h ih =>
    intro l₁ ks s l₂ hl hks hrel
    rcases concat_eq_append_cons hl with ⟨rfl, hg, rfl⟩ | ⟨l₃, rfl, rfl⟩
    · simp at hg
    · obtain ⟨u, hu, hsu⟩ := ih rfl hks fun hm => hrel (List.mem_append_left _ hm)
      have hne : k' ≠ k := fun hk => hrel (by simp [hk])
      exact ⟨u, by rw [holds_append, Entry.after, if_neg hne, hu], hsu⟩

/-- Two grants of one key are more than `d` apart, or the key is released between them. -/
theorem Spaced.apart {d : ℤ} (hd : 0 ≤ d) {l : List (Entry κ)} (h : Spaced d l) {k : κ} :
    ∀ {l₁ ks s l₂ ls t l₃}, l = l₁ ++ .grant ks s :: (l₂ ++ .grant ls t :: l₃) → k ∈ ks → k ∈ ls →
      s + d < t ∨ .release k ∈ l₂ := by
  induction h with
  | nil => intro l₁ ks s l₂ ls t l₃ hl; simp at hl
  | @grant l ms u h hk ih =>
    intro l₁ ks s l₂ ls t l₃ hl hks hls
    rw [← List.cons_append, ← List.append_assoc] at hl
    rcases concat_eq_append_cons hl with ⟨rfl, hg, hl'⟩ | ⟨l₄, rfl, hl'⟩
    · obtain ⟨rfl, rfl⟩ : ls = ms ∧ t = u := by simpa using hg
      by_cases hrel : Entry.release k ∈ l₂
      · exact .inr hrel
      · obtain ⟨v, hv, hsv⟩ := h.holds_of_grant hd hl'.symm hks hrel
        have := hk k hls v hv
        exact .inl (by omega)
    · exact ih (by rw [hl', List.append_assoc, List.cons_append]) hks hls
  | @release l k' h ih =>
    intro l₁ ks s l₂ ls t l₃ hl hks hls
    rw [← List.cons_append, ← List.append_assoc] at hl
    rcases concat_eq_append_cons hl with ⟨rfl, hg, hl'⟩ | ⟨l₄, rfl, hl'⟩
    · simp at hg
    · exact ih (by rw [hl', List.append_assoc, List.cons_append]) hks hls

end Lease
