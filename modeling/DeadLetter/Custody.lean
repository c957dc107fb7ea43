import Mathlib.Data.Set.Insert
import Mathlib.Logic.Function.Basic
import Mathlib.Tactic.Common

/-!
# Who holds what is open

Resources are opened by callers and kept in a cache of one. A caller holds the resource it opened
until it hands it to the cache or gives it up, and the cache drops what it had when it is given
another. A resource is tracked while its caller or the cache has it. A move is indexed by what it
takes for it to leave nothing open behind, and that is exactly when all that is open stays tracked
(`Move.tracked_iff`).
-/

structure Custody (κ ι : Type*) where
  issued : Set ι
  isOpen : Set ι
  held : κ → Option ι
  cached : Option ι

namespace Custody

variable {κ ι : Type*} [DecidableEq κ] {s t : Custody κ ι}

/-- Everything open is in the cache, or with a caller. -/
def Tracked (s : Custody κ ι) : Prop :=
  ∀ n ∈ s.isOpen, s.cached = some n ∨ ∃ c, s.held c = some n

/-- What was issued has one holder at most. -/
structure Owned (s : Custody κ ι) : Prop where
  heldIssued : ∀ c n, s.held c = some n → n ∈ s.issued
  cachedIssued : ∀ n, s.cached = some n → n ∈ s.issued
  unique : ∀ c d n, s.held c = some n → s.held d = some n → c = d
  apart : ∀ c n, s.held c = some n → s.cached ≠ some n

/-- A move, and what it takes for it to leave nothing open behind. -/
inductive Move (s : Custody κ ι) : Prop → Custody κ ι → Prop
  | shut (u : Set ι) (hu : u ⊆ s.isOpen) : Move s True { s with isOpen := u }
  | acquire (c : κ) (n : ι) (hc : s.held c = none) (hn : n ∉ s.issued) :
      Move s True { s with
        issued := insert n s.issued
        isOpen := insert n s.isOpen
        held := Function.update s.held c (some n) }
  | giveUp (c : κ) :
      Move s (∀ n, s.held c = some n → n ∉ s.isOpen)
        { s with held := Function.update s.held c none }
  | cache (c : κ) (n : ι) (hc : s.held c = some n) :
      Move s (∀ m, s.cached = some m → m ∉ s.isOpen)
        { s with held := Function.update s.held c none, cached := some n }
  | drop : Move s (∀ m, s.cached = some m → m ∉ s.isOpen) { s with cached := none }

theorem Move.stay : Move s True s := .shut s.isOpen subset_rfl

theorem held_update {c d : κ} {u : Option ι} {n : ι}
    (h : Function.update s.held c u d = some n) :
    (d = c ∧ u = some n) ∨ (d ≠ c ∧ s.held d = some n) := by
  by_cases hd : d = c
  · subst hd
    exact .inl ⟨rfl, by rwa [Function.update_self] at h⟩
  · exact .inr ⟨hd, by rwa [Function.update_of_ne hd] at h⟩

theorem held_released {c d : κ} {n : ι} (h : Function.update s.held c none d = some n) :
    d ≠ c ∧ s.held d = some n :=
  (held_update h).resolve_left fun h => absurd h.2 (by simp)

variable {care : Prop}

theorem Owned.move (hI : s.Owned) (h : Move s care t) : t.Owned := by
  cases h with
  | shut u hu => exact ⟨hI.heldIssued, hI.cachedIssued, hI.unique, hI.apart⟩
  | acquire c n hc hn =>
    have hfresh : ∀ d, s.held d ≠ some n := fun d hd => hn (hI.heldIssued d n hd)
    refine ⟨fun d m h => ?_, fun m h => .inr (hI.cachedIssued m h), fun d e m hd he => ?_,
      fun d m h => ?_⟩
    · rcases held_update h with ⟨-, hm⟩ | ⟨-, hd⟩
      · exact .inl (Option.some.inj hm).symm
      · exact .inr (hI.heldIssued d m hd)
    · rcases held_update hd with ⟨hdc, hm⟩ | ⟨-, hd'⟩ <;>
        rcases held_update he with ⟨hec, hm'⟩ | ⟨-, he'⟩
      · exact hdc.trans hec.symm
      · exact absurd (hm ▸ he') (hfresh e)
      · exact absurd (hm' ▸ hd') (hfresh d)
      · exact hI.unique d e m hd' he'
    · rcases held_update h with ⟨-, hm⟩ | ⟨-, hd⟩
      · exact fun hcached => hn (hI.cachedIssued n (hm ▸ hcached))
      · exact hI.apart d m hd
  | giveUp c =>
    exact ⟨fun d n h => hI.heldIssued d n (held_released h).2, hI.cachedIssued,
      fun d e n hd he => hI.unique d e n (held_released hd).2 (held_released he).2,
      fun d n h => hI.apart d n (held_released h).2⟩
  | cache c n hc =>
    refine ⟨fun d m h => hI.heldIssued d m (held_released h).2, fun m h => ?_,
      fun d e m hd he => hI.unique d e m (held_released hd).2 (held_released he).2,
      fun d m h hm => ?_⟩
    · exact Option.some.inj h ▸ hI.heldIssued c n hc
    · obtain ⟨hd, h⟩ := held_released h
      exact hd (hI.unique d c m h (hc.trans hm))
  | drop =>
    exact ⟨hI.heldIssued, fun _ h => by simp at h, hI.unique, fun _ _ _ h => by simp at h⟩

omit [DecidableEq κ] in
theorem tracked_shut {u : Set ι} (hu : u ⊆ s.isOpen) (hT : s.Tracked) :
    Tracked { s with isOpen := u } := fun n hn => hT n (hu hn)

theorem tracked_acquire {c : κ} {n : ι} (hc : s.held c = none) (hT : s.Tracked) :
    Tracked { s with
      issued := insert n s.issued
      isOpen := insert n s.isOpen
      held := Function.update s.held c (some n) } := by
  rintro m (rfl | hm)
  · exact .inr ⟨c, Function.update_self ..⟩
  · refine (hT m hm).imp_right fun ⟨d, hd⟩ => ⟨d, ?_⟩
    have hdc : d ≠ c := by
      rintro rfl
      simp [hc] at hd
    simpa only [Function.update_of_ne hdc] using hd

theorem tracked_giveUp (hI : s.Owned) (hT : s.Tracked) {c : κ} :
    Tracked { s with held := Function.update s.held c none }
      ↔ ∀ n, s.held c = some n → n ∉ s.isOpen := by
  constructor
  · intro ht n hn ho
    rcases ht n ho with hcached | ⟨d, hd⟩
    · exact hI.apart c n hn hcached
    · obtain ⟨hdc, hd⟩ := held_released hd
      exact hdc (hI.unique d c n hd hn)
  · intro hcare n ho
    refine (hT n ho).imp_right fun ⟨d, hd⟩ => ⟨d, ?_⟩
    have hdc : d ≠ c := by
      rintro rfl
      exact hcare n hd ho
    simpa only [Function.update_of_ne hdc] using hd

theorem tracked_cache (hI : s.Owned) (hT : s.Tracked) {c : κ} {n : ι} (hc : s.held c = some n) :
    Tracked { s with held := Function.update s.held c none, cached := some n }
      ↔ ∀ m, s.cached = some m → m ∉ s.isOpen := by
  constructor
  · intro ht m hm ho
    rcases ht m ho with hn | ⟨d, hd⟩
    · obtain rfl : n = m := Option.some.inj hn
      exact hI.apart c n hc hm
    · exact hI.apart d m (held_released hd).2 hm
  · intro hcare m ho
    rcases hT m ho with hm | ⟨d, hd⟩
    · exact absurd ho (hcare m hm)
    · by_cases hdc : d = c
      · subst hdc
        exact .inl (hc.symm.trans hd)
      · exact .inr ⟨d, by simpa only [Function.update_of_ne hdc] using hd⟩

omit [DecidableEq κ] in
theorem tracked_drop (hI : s.Owned) (hT : s.Tracked) :
    Tracked { s with cached := none } ↔ ∀ m, s.cached = some m → m ∉ s.isOpen := by
  constructor
  · intro ht m hm ho
    obtain ⟨d, hd⟩ := (ht m ho).resolve_left (by simp)
    exact hI.apart d m hd hm
  · intro hcare m ho
    exact .inr ((hT m ho).resolve_left fun hm => hcare m hm ho)

/-- A move keeps all that is open tracked just where it leaves nothing open behind. -/
theorem Move.tracked_iff (h : Move s care t) (hI : s.Owned) (hT : s.Tracked) :
    t.Tracked ↔ care := by
  cases h with
  | shut u hu => exact iff_of_true (tracked_shut hu hT) trivial
  | acquire c n hc hn => exact iff_of_true (tracked_acquire hc hT) trivial
  | giveUp c => exact tracked_giveUp hI hT
  | cache c n hc => exact tracked_cache hI hT hc
  | drop => exact tracked_drop hI hT

end Custody
