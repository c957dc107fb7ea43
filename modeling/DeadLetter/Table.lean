import Mathlib.Algebra.GroupWithZero.Nat
import Mathlib.Data.List.Nodup
import Mathlib.Tactic.Common

/-!
# Tables with a primary key

A table is the list of its rows, no two of one key. `update` is a conditional
`UPDATE … SET … WHERE …`: it rewrites the rows its condition selects, and leaves their keys;
`updateReturning` gives back the rewritten rows too, as `RETURNING *` does. An `insert` of a key
the table has is refused.
-/

structure Table {ρ κ : Type*} (key : ρ → κ) where
  rows : List ρ
  nodup : (rows.map key).Nodup

namespace Table

variable {ρ κ : Type*} {key : ρ → κ}

@[ext]
theorem ext {t u : Table key} (h : t.rows = u.rows) : t = u := by
  cases t; cases u; simp only at h; subst h; rfl

def empty : Table key := ⟨[], List.nodup_nil⟩

instance : Membership ρ (Table key) := ⟨fun t r => r ∈ t.rows⟩

theorem mem_def {t : Table key} {r : ρ} : r ∈ t ↔ r ∈ t.rows := Iff.rfl

/-- `UPDATE … SET f WHERE p`. -/
def update (t : Table key) (p : ρ → Bool) (f : ρ → ρ)
    (hf : ∀ r, key (f r) = key r := by intro r; rfl) : Table key where
  rows := t.rows.map fun r => if p r then f r else r
  nodup := by
    have : (fun r => key (if p r then f r else r)) = key := by
      funext r
      split_ifs
      · exact hf r
      · rfl
    rw [List.map_map, show (key ∘ fun r => if p r then f r else r) = key from this]
    exact t.nodup

/-- The rows `UPDATE … SET f WHERE p RETURNING *` gives back. -/
def returning (t : Table key) (p : ρ → Bool) (f : ρ → ρ) : List ρ := (t.rows.filter p).map f

variable [DecidableEq κ]

def replace (t : Table key) (r : ρ) : Table key :=
  t.update (fun s => key s = key r) (fun s => if key s = key r then r else s) (by
    intro s
    split_ifs with h
    · exact h.symm
    · rfl)

def get (t : Table key) (k : κ) : Option ρ := t.rows.find? fun r => key r = k

/-- `INSERT`, which the primary key refuses where the table has the key. -/
def insert (t : Table key) (r : ρ) : Option (Table key) :=
  if h : key r ∈ t.rows.map key then none
  else some ⟨t.rows ++ [r], by
    rw [List.map_append, List.map_singleton]
    exact List.nodup_append.2 ⟨t.nodup, List.nodup_singleton _, by
      rintro a ha b hb rfl
      exact h (List.mem_singleton.1 hb ▸ ha)⟩⟩

@[simp] theorem get_empty (k : κ) : (empty : Table key).get k = none := rfl

theorem key_of_get {t : Table key} {k : κ} {r : ρ} (h : t.get k = some r) : key r = k := by
  simpa using List.find?_some h

theorem mem_of_get {t : Table key} {k : κ} {r : ρ} (h : t.get k = some r) : r ∈ t :=
  List.mem_of_find?_eq_some h

theorem get_of_mem {t : Table key} {r : ρ} (h : r ∈ t) : t.get (key r) = some r := by
  obtain ⟨s, hs⟩ : ∃ s, t.get (key r) = some s := by
    refine Option.isSome_iff_exists.1 (List.find?_isSome.2 ⟨r, h, by simp⟩)
  have := List.inj_on_of_nodup_map t.nodup (mem_of_get hs) h (key_of_get hs)
  rw [hs, this]

theorem get_eq_none {t : Table key} {k : κ} : t.get k = none ↔ k ∉ t.rows.map key := by
  simp [get, List.find?_eq_none]

theorem insert_eq_some {t u : Table key} {r : ρ} :
    t.insert r = some u ↔ t.get (key r) = none ∧ u.rows = t.rows ++ [r] := by
  rw [get_eq_none]
  unfold insert
  split_ifs with h
  · simp [h]
  · simp only [Option.some.injEq, h, not_false_eq_true, true_and]
    exact ⟨fun hu => hu ▸ rfl, fun hu => ext hu.symm⟩

theorem get_insert {t u : Table key} {r : ρ} (h : t.insert r = some u) (k : κ) :
    u.get k = if k = key r then some r else t.get k := by
  obtain ⟨hn, hu⟩ := insert_eq_some.1 h
  simp only [get, hu, List.find?_append]
  split_ifs with hk
  · subst hk
    rw [show List.find? (fun s => decide (key s = key r)) t.rows = none from hn]
    simp
  · rw [List.find?_cons_of_neg (by simpa using fun h => hk h.symm)]
    simp

theorem mem_insert {t u : Table key} {r s : ρ} (h : t.insert r = some u) :
    s ∈ u ↔ s ∈ t ∨ s = r := by
  rw [mem_def, (insert_eq_some.1 h).2, List.mem_append, List.mem_singleton, mem_def]

section Update

variable {t : Table key} {p : ρ → Bool} {f : ρ → ρ} (hf : ∀ r, key (f r) = key r)

theorem get_update (k : κ) :
    (t.update p f hf).get k = (t.get k).map fun r => if p r then f r else r := by
  have : ∀ r, key (if p r then f r else r) = key r := fun r => by
    split_ifs
    · exact hf r
    · rfl
  simp only [get, update, List.find?_map, Function.comp_def, this]

omit [DecidableEq κ] in
theorem mem_returning {s : ρ} : s ∈ t.returning p f ↔ ∃ r ∈ t, p r = true ∧ f r = s := by
  simp [returning, mem_def, and_assoc]

omit [DecidableEq κ] in
/-- A column an update does not set is as it was. -/
theorem map_update {β : Type*} {g : ρ → β} (hg : ∀ r, g (f r) = g r) :
    (t.update p f hf).rows.map g = t.rows.map g := by
  simp only [update, List.map_map]
  refine List.map_congr_left fun r _ => ?_
  simp only [Function.comp_apply]
  split_ifs
  · exact hg r
  · rfl

omit [DecidableEq κ] in
theorem update_of_false (h : ∀ r ∈ t, p r = false) : t.update p f hf = t := by
  refine ext ?_
  simp only [update]
  conv_rhs => rw [← List.map_id t.rows]
  exact List.map_congr_left fun r hr => by simp [h r hr]

end Update

theorem get_replace {t : Table key} {r : ρ} (k : κ) :
    (t.replace r).get k = if k = key r then (t.get k).map fun _ => r else t.get k := by
  rw [replace, get_update]
  rcases hg : t.get k with _ | s
  · split_ifs <;> rfl
  · have hs := key_of_get hg
    split_ifs with h <;> simp [hs, h]

/-! ## One row put in another's place -/

theorem length_replace {t : Table key} {r : ρ} : (t.replace r).rows.length = t.rows.length := by
  simp [replace, update]

/-- The row of a key, among the others. -/
theorem rows_eq_of_get {t : Table key} {k : κ} {s : ρ} (h : t.get k = some s) :
    ∃ l₁ l₂, t.rows = l₁ ++ s :: l₂ ∧ (∀ r ∈ l₁, key r ≠ k) ∧ ∀ r ∈ l₂, key r ≠ k := by
  obtain ⟨l₁, l₂, hl⟩ := List.append_of_mem (mem_of_get h)
  have hn := t.nodup
  rw [hl, List.map_append, List.map_cons, key_of_get h, List.nodup_append, List.nodup_cons] at hn
  obtain ⟨-, ⟨h₂, -⟩, h₁⟩ := hn
  refine ⟨l₁, l₂, hl, fun r hr => ?_, fun r hr hk => h₂ (hk ▸ List.mem_map_of_mem hr)⟩
  exact h₁ _ (List.mem_map_of_mem hr) _ (List.mem_cons_self ..)

/-- Its row is in the other's place, and the others are where they were. -/
theorem rows_replace {t : Table key} {r s : ρ} (h : t.get (key r) = some s) :
    ∃ l₁ l₂, t.rows = l₁ ++ s :: l₂ ∧ (t.replace r).rows = l₁ ++ r :: l₂ := by
  obtain ⟨l₁, l₂, hl, h₁, h₂⟩ := rows_eq_of_get h
  have hmap : ∀ l : List ρ, (∀ a ∈ l, key a ≠ key r) → (l.map fun a => if key a = key r then
      (if key a = key r then r else a) else a) = l := by
    intro l hl
    conv_rhs => rw [← List.map_id l]
    exact List.map_congr_left fun a ha => by simp [hl a ha]
  refine ⟨l₁, l₂, hl, ?_⟩
  simp only [replace, update, decide_eq_true_eq, hl, List.map_append, List.map_cons, hmap _ h₁,
    hmap _ h₂, key_of_get h, if_true]

/-- A total changes by what the row at the key does. -/
theorem sum_replace {t : Table key} {r s : ρ} (f : ρ → ℕ) (h : t.get (key r) = some s) :
    ((t.replace r).rows.map f).sum + f s = (t.rows.map f).sum + f r := by
  obtain ⟨l₁, l₂, hl, hr⟩ := rows_replace h
  rw [hr, hl]
  simp only [List.map_append, List.map_cons, List.sum_append, List.sum_cons]
  omega

theorem countP_replace {t : Table key} {r s : ρ} (p : ρ → Bool) (h : t.get (key r) = some s) :
    (t.replace r).rows.countP p + (if p s then 1 else 0)
      = t.rows.countP p + if p r then 1 else 0 := by
  obtain ⟨l₁, l₂, hl, hr⟩ := rows_replace h
  rw [hr, hl]
  simp only [List.countP_append, List.countP_cons]
  omega

/-! ## Updates of one row -/

/-- `UPDATE … SET f WHERE key = k AND q`. -/
def updateKey (t : Table key) (k : κ) (q : ρ → Bool) (f : ρ → ρ)
    (hf : ∀ r, key (f r) = key r := by intro r; rfl) : Table key :=
  t.update (fun r => key r = k && q r) f hf

/-- The first row of `UPDATE … SET f WHERE key = k AND q RETURNING *`. -/
def returningKey (t : Table key) (k : κ) (q : ρ → Bool) (f : ρ → ρ) : Option ρ :=
  (t.returning (fun r => key r = k && q r) f)[0]?

section UpdateKey

variable {t : Table key} {k : κ} {q : ρ → Bool} {f : ρ → ρ} (hf : ∀ r, key (f r) = key r)

theorem get_updateKey (l : κ) : (t.updateKey k q f hf).get l
    = if l = k then (t.get k).map fun r => if q r then f r else r else t.get l := by
  rw [updateKey, get_update]
  rcases hg : t.get l with _ | r
  · split_ifs with h
    · rw [← h, hg]; rfl
    · rfl
  · have hr := key_of_get hg
    split_ifs with h
    · rw [← h, hg]; simp [hr, h]
    · simp [hr, h]

theorem returningKey_eq : t.returningKey k q f = ((t.get k).filter q).map f := by
  have hl : ∀ l : List ρ, (l.map key).Nodup →
      (l.filter fun r => key r = k && q r) = (l.find? fun r => key r = k).toList.filter q := by
    intro l
    induction l with
    | nil => simp
    | cons r l ih =>
      intro hn
      rw [List.map_cons, List.nodup_cons] at hn
      by_cases hr : key r = k
      · have hno : (l.filter fun s => key s = k && q s) = [] := by
          rw [List.filter_eq_nil_iff]
          intro s hs
          have : key s ≠ k := fun h => hn.1 (by
            rw [hr, ← h]; exact List.mem_map_of_mem hs)
          simp [this]
        rw [List.find?_cons_of_pos (by simpa using hr), Option.toList_some,
          List.filter_cons, List.filter_cons, hno]
        simp [hr]
      · rw [List.find?_cons_of_neg (by simpa using hr), List.filter_cons_of_neg (by simp [hr]),
          ih hn.2]
  rw [returningKey, returning, hl _ t.nodup]
  change _ = ((List.find? _ t.rows).filter q).map f
  rcases List.find? (fun r => decide (key r = k)) t.rows with _ | r
  · rfl
  · cases hq : q r <;> simp [hq, Option.filter]

theorem updateKey_of_returning_none (h : t.returningKey k q f = none) :
    t.updateKey k q f hf = t := by
  rw [returningKey_eq] at h
  refine update_of_false hf fun r hr => ?_
  by_cases hk : key r = k
  · have := get_of_mem hr
    rw [hk] at this
    rw [this] at h
    simpa [hk, Option.filter] using h
  · simp [hk]

/-- An update of one row puts the row it returns in its place. -/
theorem replace_eq_updateKey {r : ρ} (h : t.get k = some r) (hq : q r = true) :
    t.replace (f r) = t.updateKey k q f hf := by
  have hk := key_of_get h
  refine ext ?_
  simp only [replace, updateKey, update]
  refine List.map_congr_left fun s hs => ?_
  have hkr : key (f r) = k := (hf r).trans hk
  by_cases hsk : key s = k
  · have hsr : s = r := by
      have := get_of_mem hs
      rw [hsk, h] at this
      exact (Option.some.inj this).symm
    subst hsr
    simp [hkr, hk, hq]
  · simp [hkr, hsk]

theorem returningKey_eq_some {s : ρ} :
    t.returningKey k q f = some s ↔ ∃ r, t.get k = some r ∧ q r = true ∧ f r = s := by
  rw [returningKey_eq]
  rcases t.get k with _ | r
  · simp
  · cases hq : q r <;> simp [Option.filter, hq]

end UpdateKey

end Table
