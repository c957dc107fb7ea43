import Mathlib.Data.List.Perm.Basic
import Mathlib.Tactic.Common
import DeadLetter.Transition

/-!
# Buffered connections

A write on a connection is a write to its buffer. A frame of the buffer reaches the peer later, in
its turn, or never, where the connection is lost before. Frames are numbered in the order they are
written, over all connections, and each is in one place (`Wire.Conserved`). So whether a frame has
reached the peer can be told from what has been done: its connection has been flushed often enough
since it was written, and was not lost before (`Wire.delivered_iff_flushed`).
-/

structure Wire (κ φ : Type*) where
  written : List φ := []
  buffered : List (κ × ℕ) := []
  lost : List κ := []
  accepted : List ℕ := []
  dropped : List ℕ := []

namespace Wire

variable {κ φ : Type*}

def write (w : Wire κ φ) (c : κ) (f : φ) : Wire κ φ :=
  { w with written := w.written ++ [f], buffered := w.buffered ++ [(c, w.written.length)] }

variable [DecidableEq κ]

def flush (w : Wire κ φ) (c : κ) : Option (Wire κ φ) :=
  if c ∈ w.lost then none
  else (w.buffered.find? fun p => p.1 = c).map fun p =>
    { w with buffered := w.buffered.erase p, accepted := w.accepted ++ [p.2] }

def lose (w : Wire κ φ) (c : κ) : Wire κ φ :=
  { w with
    buffered := w.buffered.filter fun p => !decide (p.1 = c)
    lost := c :: w.lost
    dropped := w.dropped ++ (w.buffered.filter fun p => p.1 = c).map Prod.snd }

/-- A frame `f` has reached the peer. -/
def Delivered (w : Wire κ φ) (f : φ) : Prop := ∃ n ∈ w.accepted, w.written[n]? = some f

def Conserved (w : Wire κ φ) : Prop :=
  ∀ n, (w.buffered.map Prod.snd).count n + w.dropped.count n + w.accepted.count n
    = if n < w.written.length then 1 else 0

omit [DecidableEq κ] in
theorem conserved_empty : Conserved ({} : Wire κ φ) := fun n => by simp

omit [DecidableEq κ] in
theorem Conserved.write {w : Wire κ φ} (h : w.Conserved) (c : κ) (f : φ) :
    (w.write c f).Conserved := by
  intro n
  have := h n
  simp only [Wire.write, List.map_append, List.map_cons, List.map_nil, List.count_append,
    List.count_singleton, List.length_append, List.length_singleton, beq_iff_eq]
  split_ifs at this ⊢ <;> omega

theorem Conserved.flush {w w' : Wire κ φ} (h : w.Conserved) {c : κ}
    (hf : w.flush c = some w') : w'.Conserved := by
  unfold Wire.flush at hf
  split_ifs at hf
  obtain ⟨p, hp, rfl⟩ := Option.map_eq_some_iff.1 hf
  intro n
  have hmem := List.mem_of_find?_eq_some hp
  have hperm := ((List.perm_cons_erase hmem).map Prod.snd).count_eq n
  have := h n
  rw [List.map_cons, List.count_cons] at hperm
  simp only [List.count_append, List.count_singleton] at hperm ⊢
  omega

theorem Conserved.lose {w : Wire κ φ} (h : w.Conserved) (c : κ) : (w.lose c).Conserved := by
  intro n
  have hperm := ((List.filter_append_perm (fun p : κ × ℕ => decide (p.1 = c))
    w.buffered).map Prod.snd).count_eq n
  rw [List.map_append, List.count_append] at hperm
  refine Eq.trans ?_ (h n)
  simp only [Wire.lose, List.count_append]
  omega

/-! ## Runs -/

end Wire

inductive WireAction (κ φ : Type*)
  | write (c : κ) (f : φ)
  | flush (c : κ)
  | lose (c : κ)

namespace Wire

open Transition

variable {κ φ : Type*} [DecidableEq κ] {w w' : Wire κ φ} {c d : κ} {f : φ} {i : ℕ}
  {as : List (WireAction κ φ)}

def step (w : Wire κ φ) : WireAction κ φ → Option (Wire κ φ)
  | .write c f => some (w.write c f)
  | .flush c => w.flush c
  | .lose c => some (w.lose c)

/-- The frames that stand in the buffer of `c` after the actions, of `n` to begin with. -/
def standing (c : κ) : ℕ → List (WireAction κ φ) → ℕ
  | n, [] => n
  | n, .write d _ :: as => standing c (if d = c then n + 1 else n) as
  | n, .flush d :: as => standing c (if d = c then n - 1 else n) as
  | n, .lose d :: as => standing c (if d = c then 0 else n) as

/-- A frame that stands in the buffer of `c`, behind `n` others, is flushed in these actions: as
often as it takes, and before the connection is lost. -/
def Leaves (c : κ) : ℕ → List (WireAction κ φ) → Prop
  | _, [] => False
  | n, .write _ _ :: as => Leaves c n as
  | n, .flush d :: as => if d = c then n = 0 ∨ Leaves c (n - 1) as else Leaves c n as
  | n, .lose d :: as => d ≠ c ∧ Leaves c n as

/-- Some frame `f` was written, and has been flushed since. -/
def Flushed (as : List (WireAction κ φ)) (f : φ) : Prop :=
  ∃ before c after, as = before ++ .write c f :: after ∧ Leaves c (standing c 0 before) after

/-- The frames of `c` in its buffer, in their order. -/
def pending (w : Wire κ φ) (c : κ) : List ℕ := (w.buffered.filter fun p => p.1 = c).map Prod.snd

theorem pending_write : (w.write d f).pending c
    = if d = c then w.pending c ++ [w.written.length] else w.pending c := by
  by_cases h : d = c <;> simp [pending, Wire.write, List.filter_append, h]

theorem pending_lose : (w.lose d).pending c = if d = c then [] else w.pending c := by
  unfold pending Wire.lose
  rw [List.filter_filter]
  by_cases h : d = c
  · simp [h]
  · rw [if_neg h]
    congr 1
    refine List.filter_congr fun p _ => ?_
    by_cases hp : p.1 = c <;> simp [hp, Ne.symm h]

/-- A flush sends the first frame of its connection, and leaves those of the others. -/
theorem pending_flush (h : w.flush d = some w') : ∃ i, w'.accepted = w.accepted ++ [i]
    ∧ w.pending d = i :: w'.pending d ∧ ∀ c, c ≠ d → w'.pending c = w.pending c := by
  unfold Wire.flush at h
  split_ifs at h
  obtain ⟨⟨e, i⟩, hp, rfl⟩ := Option.map_eq_some_iff.1 h
  obtain ⟨he, before, after, hb, hne⟩ := List.find?_eq_some_iff_append.1 hp
  obtain rfl : e = d := by simpa using he
  have hmem : (e, i) ∉ before := fun hm => by simpa using hne _ hm
  have herase : w.buffered.erase (e, i) = before ++ after := by
    rw [hb, List.erase_append_right _ hmem, List.erase_cons_head]
  have hnil : before.filter (fun p => p.1 = e) = [] :=
    List.filter_eq_nil_iff.2 fun p hm => by simpa using hne p hm
  refine ⟨i, rfl, ?_, fun c hc => ?_⟩
  · simp only [pending]
    rw [herase, hb]
    simp [List.filter_append, hnil]
  · simp only [pending]
    rw [herase, hb]
    simp [List.filter_append, Ne.symm hc]

theorem conserved_step {a : WireAction κ φ} (hw : w.Conserved) (h : w.step a = some w') :
    w'.Conserved := by
  cases a with
  | write c f => exact Option.some.inj h ▸ hw.write c f
  | flush c => exact hw.flush h
  | lose c => exact Option.some.inj h ▸ hw.lose c

/-- What is written, accepted or dropped stays so. -/
theorem grows_of_step {a : WireAction κ φ} (h : w.step a = some w') : w.written <+: w'.written
    ∧ w.accepted ⊆ w'.accepted ∧ w.dropped ⊆ w'.dropped := by
  cases a with
  | write c f =>
    obtain rfl := Option.some.inj h
    exact ⟨List.prefix_append _ _, fun _ h => h, fun _ h => h⟩
  | flush c =>
    simp only [step, Wire.flush] at h
    split_ifs at h
    obtain ⟨p, -, rfl⟩ := Option.map_eq_some_iff.1 h
    exact ⟨List.prefix_rfl, List.subset_append_left _ _, fun _ h => h⟩
  | lose c =>
    obtain rfl := Option.some.inj h
    exact ⟨List.prefix_rfl, fun _ h => h, List.subset_append_left _ _⟩

theorem grows_of_exec (h : exec step w as = some w') : w.written <+: w'.written
    ∧ w.accepted ⊆ w'.accepted ∧ w.dropped ⊆ w'.dropped := by
  refine exec_inv (I := fun v : Wire κ φ => w.written <+: v.written ∧ w.accepted ⊆ v.accepted
    ∧ w.dropped ⊆ v.dropped) (fun u a v hu hs => ?_)
    ⟨List.prefix_rfl, fun _ h => h, fun _ h => h⟩ h
  obtain ⟨h1, h2, h3⟩ := grows_of_step hs
  exact ⟨hu.1.trans h1, fun _ hi => h2 (hu.2.1 hi), fun _ hi => h3 (hu.2.2 hi)⟩

/-- What has reached the peer has done so for good. -/
theorem Delivered.exec (hd : w.Delivered f) (h : exec step w as = some w') : w'.Delivered f := by
  obtain ⟨⟨l, hl⟩, haccepted, -⟩ := grows_of_exec h
  obtain ⟨n, hn, hf⟩ := hd
  refine ⟨n, haccepted hn, ?_⟩
  rw [← hl, List.getElem?_append_left (List.getElem?_eq_some_iff.1 hf).1, hf]

omit [DecidableEq κ] in
theorem Conserved.not_accepted (h : w.Conserved)
    (hi : i ∈ w.buffered.map Prod.snd ∨ i ∈ w.dropped) : i ∉ w.accepted := by
  intro ha
  have hc := h i
  have hpos := List.count_pos_iff.2 ha
  rcases hi with hb | hd
  · have := List.count_pos_iff.2 hb
    split_ifs at hc <;> omega
  · have := List.count_pos_iff.2 hd
    split_ifs at hc <;> omega

/-- What becomes of a frame that stands in a buffer. -/
theorem accepted_iff_leaves : ∀ {as : List (WireAction κ φ)} {w : Wire κ φ} {q₁ q₂ : List ℕ},
    w.Conserved → w.pending c = q₁ ++ i :: q₂ → exec step w as = some w' →
      (i ∈ w'.accepted ↔ Leaves c q₁.length as)
  | [], w, q₁, q₂, hw, hq, h => by
    obtain rfl := Option.some.inj h
    have hi : i ∈ w.pending c := by simp [hq]
    refine iff_of_false (hw.not_accepted (.inl ?_)) fun hl => hl
    exact (List.filter_sublist.map Prod.snd).subset hi
  | .write d f :: as, w, q₁, q₂, hw, hq, h => by
    obtain ⟨v, hv, h⟩ := exec_cons.1 h
    obtain rfl := Option.some.inj hv
    have hq' : (w.write d f).pending c
        = q₁ ++ i :: (if d = c then q₂ ++ [w.written.length] else q₂) := by
      rw [pending_write, hq]
      split_ifs <;> simp
    unfold Leaves
    exact accepted_iff_leaves (hw.write d f) hq' h
  | .flush d :: as, w, q₁, q₂, hw, hq, h => by
    obtain ⟨v, hv, h⟩ := exec_cons.1 h
    obtain ⟨k, hk, hd, hne⟩ := pending_flush hv
    unfold Leaves
    split_ifs with hdc
    · rw [hdc, hq] at hd
      rcases q₁ with _ | ⟨j, q₁⟩
      · obtain ⟨rfl, -⟩ := List.cons.inj hd
        exact iff_of_true ((grows_of_exec h).2.1 (by simp [hk])) (.inl rfl)
      · obtain ⟨-, hd⟩ := List.cons.inj hd
        rw [accepted_iff_leaves (hw.flush hv) hd.symm h]
        simp
    · rw [accepted_iff_leaves (hw.flush hv) (by rw [hne c (Ne.symm hdc), hq]) h]
  | .lose d :: as, w, q₁, q₂, hw, hq, h => by
    obtain ⟨v, hv, h⟩ := exec_cons.1 h
    obtain rfl := Option.some.inj hv
    unfold Leaves
    by_cases hdc : d = c
    · subst hdc
      have hi : i ∈ w.pending d := by simp [hq]
      have hdrop : i ∈ w'.dropped := (grows_of_exec h).2.2 (List.mem_append_right _ hi)
      have hc : w'.Conserved := exec_inv (fun _ _ _ => conserved_step) (hw.lose d) h
      exact iff_of_false (hc.not_accepted (.inr hdrop)) fun hl => hl.1 rfl
    · rw [accepted_iff_leaves (hw.lose d) (by rw [pending_lose, if_neg hdc, hq]) h]
      exact ⟨fun hl => ⟨hdc, hl⟩, fun hl => hl.2⟩

theorem standing_eq : ∀ {as : List (WireAction κ φ)} {w : Wire κ φ},
    exec step w as = some w' → standing c (w.pending c).length as = (w'.pending c).length
  | [], w, h => by
    obtain rfl := Option.some.inj h
    rfl
  | .write d f :: as, w, h => by
    obtain ⟨v, hv, h⟩ := exec_cons.1 h
    obtain rfl := Option.some.inj hv
    rw [← standing_eq h, pending_write, standing]
    split_ifs <;> simp
  | .flush d :: as, w, h => by
    obtain ⟨v, hv, h⟩ := exec_cons.1 h
    obtain ⟨k, -, hd, hne⟩ := pending_flush hv
    rw [← standing_eq h, standing]
    split_ifs with hdc
    · rw [← hdc, hd]
      rfl
    · rw [hne c (Ne.symm hdc)]
  | .lose d :: as, w, h => by
    obtain ⟨v, hv, h⟩ := exec_cons.1 h
    obtain rfl := Option.some.inj hv
    rw [← standing_eq h, pending_lose, standing]
    split_ifs <;> rfl

/-- A frame that a run has written was written by one of its actions. -/
theorem write_of_written : ∀ {as : List (WireAction κ φ)} {w : Wire κ φ},
    exec step w as = some w' → w.written.length ≤ i → w'.written[i]? = some f →
      ∃ before c after v, as = before ++ .write c f :: after ∧ exec step w before = some v
        ∧ v.written.length = i
  | [], w, h, hi, hf => by
    obtain rfl := Option.some.inj h
    rw [List.getElem?_eq_none hi] at hf
    cases hf
  | a :: as, w, h, hi, hf => by
    obtain ⟨u, hu, h⟩ := exec_cons.1 h
    have hrest : u.written.length ≤ i → ∃ before c after v,
        a :: as = before ++ .write c f :: after ∧ exec step w before = some v
          ∧ v.written.length = i := fun hi => by
      obtain ⟨before, c, after, v, rfl, hv, hl⟩ := write_of_written h hi hf
      exact ⟨a :: before, c, after, v, rfl, exec_cons.2 ⟨u, hu, hv⟩, hl⟩
    cases a with
    | write c g =>
      obtain rfl := Option.some.inj hu
      rcases hi.eq_or_lt with rfl | hlt
      · obtain ⟨l, hl⟩ := (grows_of_exec h).1
        rw [← hl, Wire.write] at hf
        obtain rfl : g = f := by simpa using hf
        exact ⟨[], c, as, w, rfl, rfl, rfl⟩
      · exact hrest (by simpa [Wire.write] using Nat.succ_le_of_lt hlt)
    | flush c =>
      refine hrest ?_
      simp only [step, Wire.flush] at hu
      split_ifs at hu
      obtain ⟨p, -, rfl⟩ := Option.map_eq_some_iff.1 hu
      exact hi
    | lose c =>
      obtain rfl := Option.some.inj hu
      exact hrest hi

/-- A frame has reached the peer just where it was flushed after it was written. -/
theorem delivered_iff_flushed (h : exec step {} as = some w') :
    w'.Delivered f ↔ Flushed as f := by
  have hleaves : ∀ {before c after v}, as = before ++ .write c f :: after →
      exec step ({} : Wire κ φ) before = some v →
      (v.written.length ∈ w'.accepted ↔ Leaves c (standing c 0 before) after)
        ∧ w'.written[v.written.length]? = some f := by
    rintro before c after v rfl hv
    obtain ⟨u, hu, h⟩ := exec_append.1 h
    obtain rfl : v = u := Option.some.inj (hv.symm.trans hu)
    obtain ⟨x, hx, h⟩ := exec_cons.1 h
    obtain rfl := Option.some.inj hx
    have hv' : v.Conserved := exec_inv (fun _ _ _ => conserved_step) conserved_empty hv
    have hs : standing c 0 before = (v.pending c).length := standing_eq hv
    refine ⟨?_, ?_⟩
    · rw [hs]
      exact accepted_iff_leaves (hv'.write c f) (by rw [pending_write, if_pos rfl]) h
    · obtain ⟨l, hl⟩ := (grows_of_exec h).1
      rw [← hl]
      simp [Wire.write]
  constructor
  · rintro ⟨i, hi, hf⟩
    obtain ⟨before, c, after, v, has, hv, rfl⟩ := write_of_written h (Nat.zero_le _) hf
    exact ⟨before, c, after, has, (hleaves has hv).1.1 hi⟩
  · rintro ⟨before, c, after, has, hl⟩
    obtain ⟨v, hv, -⟩ := exec_append.1 (has ▸ h)
    exact ⟨_, (hleaves has hv).1.2 hl, (hleaves has hv).2⟩

end Wire
