import Mathlib.Algebra.BigOperators.Group.List.Basic
import Mathlib.Algebra.Order.Ring.Nat
import Mathlib.Data.List.Sort

/-!
# Turns

Those that wait are served in batches, the first of them by their order. Where one is passed over,
a whole batch of others is served, none of them behind it. So it is not passed over for ever: the
others would have to be served for ever too.
-/

namespace Turns

section Batch

variable {α : Type*} {r : α → α → Prop} [DecidableRel r] [Std.Total r] [IsTrans α r]

/-- Where one that waits is not in the batch, the batch is full, and has none that is behind it. -/
theorem full_of_passed {l : List α} {n : ℕ} {a : α} (ha : a ∈ l)
    (hn : a ∉ (l.insertionSort r).take n) :
    ((l.insertionSort r).take n).length = n ∧ ∀ b ∈ (l.insertionSort r).take n, r b a := by
  have hmem : a ∈ (l.insertionSort r).take n ++ (l.insertionSort r).drop n := by
    rw [List.take_append_drop]
    exact (List.mem_insertionSort r).2 ha
  have hdrop : a ∈ (l.insertionSort r).drop n := (List.mem_append.1 hmem).resolve_left hn
  constructor
  · have := List.length_pos_of_mem hdrop
    rw [List.length_drop] at this
    rw [List.length_take]
    omega
  · have hs := List.pairwise_insertionSort r l
    rw [← List.take_append_drop n (l.insertionSort r), List.pairwise_append] at hs
    exact fun b hb => hs.2.2 b hb a hdrop

end Batch

/-- A turn: whether the one in question waits, and who is served. -/
structure Turn (κ : Type*) where
  waits : Bool
  served : List κ

variable {κ : Type*} [DecidableEq κ] {k : κ} {l : List (Turn κ)} {n : ℕ} {others : List κ}

def Turn.serves (k : κ) (t : Turn κ) : Bool := k ∈ t.served

def Turn.passes (k : κ) (t : Turn κ) : Bool := t.waits && !t.serves k

/-- Where it is passed over, at least `n` of the others are served. -/
def Fair (k : κ) (n : ℕ) (others : List κ) (l : List (Turn κ)) : Prop :=
  ∀ t ∈ l, t.passes k = true → n ≤ t.served.length ∧ t.served.Nodup ∧ t.served ⊆ others

/-- Those a turn serves are counted once more. -/
theorem sum_serves_cons (t : Turn κ) : ∀ others : List κ,
    (others.map fun i => (t :: l).countP (·.serves i)).sum
      = (others.map fun i => l.countP (·.serves i)).sum + others.countP (t.serves ·)
  | [] => rfl
  | i :: others => by
    rw [List.map_cons, List.map_cons, List.sum_cons, List.sum_cons, sum_serves_cons t others,
      List.countP_cons, List.countP_cons]
    omega

theorem mul_passes_le (h : Fair k n others l) :
    n * l.countP (·.passes k) ≤ (others.map fun i => l.countP (·.serves i)).sum := by
  induction l with
  | nil => simp
  | cons t l ih =>
    have ih := ih fun u hu => h u (List.mem_cons_of_mem _ hu)
    rw [sum_serves_cons, List.countP_cons, Nat.mul_add]
    refine Nat.add_le_add ih ?_
    split_ifs with hp
    · obtain ⟨hn, hnd, hsub⟩ := h t (List.mem_cons_self ..) hp
      have hle : t.served.length ≤ (others.filter (t.serves ·)).length :=
        (List.subperm_of_subset hnd fun i hi =>
          List.mem_filter.2 ⟨hsub hi, decide_eq_true hi⟩).length_le
      rw [List.countP_eq_length_filter]
      omega
    · omega

/-- It is served in each of its turns but those, at most one for `n` that the others have. -/
theorem waits_le (hn : 0 < n) (h : Fair k n others l) :
    l.countP (·.waits) ≤ l.countP (·.serves k)
      + (others.map fun i => l.countP (·.serves i)).sum / n := by
  have hor : l.countP (·.waits) ≤ l.countP (·.serves k) + l.countP (·.passes k) := by
    clear h
    induction l with
    | nil => simp
    | cons t l ih =>
      have ht : (if t.waits then 1 else 0)
          ≤ (if t.serves k then 1 else 0) + if t.passes k then 1 else 0 := by
        unfold Turn.passes
        cases t.waits <;> cases t.serves k <;> decide
      simp only [List.countP_cons]
      omega
  have hpass : l.countP (·.passes k) ≤ (others.map fun i => l.countP (·.serves i)).sum / n := by
    rw [Nat.le_div_iff_mul_le hn, Nat.mul_comm]
    exact mul_passes_le h
  omega

end Turns
