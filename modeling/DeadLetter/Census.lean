import Mathlib.Data.Set.Card
import Mathlib.Logic.Function.Basic
import Mathlib.Tactic.Common

/-!
# Counting parties

How many of a system's parties are in a state of some kind, where all but finitely many are not. A
step that moves one party changes the count by that party alone.
-/

namespace Census

variable {ι α : Type*} {p q : α → Bool} {f : ι → α}

/-- The parties whose state `p` holds of. -/
def among (p : α → Bool) (f : ι → α) : Set ι := {i | p (f i) = true}

noncomputable def count (p : α → Bool) (f : ι → α) : ℕ := (among p f).ncard

theorem mem_among {i : ι} : i ∈ among p f ↔ p (f i) = true := Iff.rfl

theorem among_subset (h : ∀ a, p a = true → q a = true) : among p f ⊆ among q f :=
  fun i => h (f i)

theorem among_eq_empty : among p f = ∅ ↔ ∀ i, p (f i) = false := by
  simp only [Set.eq_empty_iff_forall_notMem, mem_among, Bool.not_eq_true]

theorem count_eq_zero_of (h : ∀ i, p (f i) = false) : count p f = 0 := by
  rw [count, among_eq_empty.2 h, Set.ncard_empty]

theorem pos_of_mem (hf : (among p f).Finite) {i : ι} (hi : p (f i) = true) : 0 < count p f :=
  (Set.ncard_pos hf).2 ⟨i, hi⟩

theorem eq_of_count_le_one (hf : (among p f).Finite) (h : count p f ≤ 1) {i j : ι}
    (hi : p (f i) = true) (hj : p (f j) = true) : i = j :=
  (Set.ncard_le_one hf).1 h i hi j hj

variable [DecidableEq ι] {i : ι} {a : α}

theorem among_update : among p (Function.update f i a)
    = if p a = true then insert i (among p f) else among p f \ {i} := by
  ext j
  by_cases hj : j = i
  · subst hj
    split_ifs with ha <;> simp [mem_among, ha]
  · split_ifs <;> simp [mem_among, hj]

theorem finite_update (hf : (among p f).Finite) : (among p (Function.update f i a)).Finite := by
  rw [among_update]
  split_ifs
  · exact hf.insert i
  · exact hf.sdiff

/-- A party that moves leaves the count as the one it was, and enters it as the one it is. -/
theorem count_update (hf : (among p f).Finite) :
    count p (Function.update f i a) + (p (f i)).toNat = count p f + (p a).toNat := by
  unfold count
  rw [among_update]
  cases ha : p a <;> cases hi : p (f i)
  · have hmem : i ∉ among p f := by simp [mem_among, hi]
    simp [Set.sdiff_singleton_eq_self hmem]
  · simpa using Set.ncard_sdiff_singleton_add_one (mem_among.2 hi) hf
  · have hmem : i ∉ among p f := by simp [mem_among, hi]
    simp [Set.ncard_insert_of_notMem hmem hf]
  · simp [Set.insert_eq_of_mem (mem_among.2 hi)]

end Census
