import Mathlib.Data.Int.Notation
import Mathlib.Data.List.Sort

/-!
# Sorting by two keys

`sort.Slice` leaves the elements of a slice in an order in which none stands before one that is
less. It is not stable, so in general the result is not determined (`Sorts`). When the comparison is
by one key and then by a second one that tells the elements apart, the result is strictly increasing
and there is only one (`Sorts.increasing`, `Sorts.unique`), in whatever order the elements were
gathered.
-/

namespace SecretsBroker

/-- What `sort.Slice` may make of a list. -/
structure Sorts {α : Type*} (less : α → α → Bool) (xs out : List α) : Prop where
  perm : out.Perm xs
  ordered : out.Pairwise fun a b => less b a = false

/-- Some implementation of `sort.Slice` with a comparison. -/
structure Sorter {α : Type*} (less : α → α → Bool) where
  sort : List α → List α
  sorts : ∀ xs, Sorts less xs (sort xs)

section TwoKeys

variable {α β γ : Type*} [LT β] [LE β] [Std.IsLinearOrder β] [Std.LawfulOrderLT β] [DecidableEq β]
  [DecidableLT β] [LT γ] [LE γ] [Std.IsLinearOrder γ] [Std.LawfulOrderLT γ] [DecidableLT γ]
  {f : α → β} {g : α → γ}

/-- The comparison by a first key and, where that is equal, by a second one. -/
def lessBy (f : α → β) (g : α → γ) (a b : α) : Bool :=
  if f a = f b then decide (g a < g b) else decide (f a < f b)

omit [Std.IsLinearOrder β] [LE γ] [Std.IsLinearOrder γ] [Std.LawfulOrderLT γ] in
theorem lessBy_iff {a b : α} : lessBy f g a b = true ↔ f a < f b ∨ f a = f b ∧ g a < g b := by
  unfold lessBy
  split_ifs with h
  · simp [h, Std.lt_irrefl]
  · simp [h]

theorem lessBy_eq_false_iff {a b : α} :
    lessBy f g b a = false ↔ f a < f b ∨ f a = f b ∧ g a ≤ g b := by
  rw [← Bool.not_eq_true, lessBy_iff, not_or, not_and, Std.not_lt]
  constructor
  · rintro ⟨hle, himp⟩
    by_cases h : f a = f b
    · exact .inr ⟨h, Std.not_lt.1 (himp h.symm)⟩
    · exact .inl (Std.lt_of_le_of_ne hle h)
  · rintro (h | ⟨h, hle⟩)
    · exact ⟨Std.le_of_lt h, fun he => absurd (he ▸ h) Std.lt_irrefl⟩
    · exact ⟨Std.le_of_eq h, fun _ => Std.not_lt.2 hle⟩

/-- Elements that the second key tells apart are in one order or the other. -/
theorem lessBy_of_ne {a b : α} (h : lessBy f g b a = false) (hne : g a ≠ g b) :
    lessBy f g a b = true := by
  rcases lessBy_eq_false_iff.1 h with h | ⟨h, hle⟩
  · exact lessBy_iff.2 (.inl h)
  · exact lessBy_iff.2 (.inr ⟨h, Std.lt_of_le_of_ne hle hne⟩)

theorem lessBy_asymm {a b : α} (h : lessBy f g a b = true) : lessBy f g b a = false := by
  rcases lessBy_iff.1 h with h | ⟨h, hlt⟩
  · exact lessBy_eq_false_iff.2 (.inl h)
  · exact lessBy_eq_false_iff.2 (.inr ⟨h, Std.le_of_lt hlt⟩)

theorem sorts_insertionSort (xs : List α) :
    Sorts (lessBy f g) xs (xs.insertionSort fun a b => lessBy f g b a = false) := by
  have total : Std.Total fun a b => lessBy f g b a = false := by
    refine ⟨fun a b => ?_⟩
    by_cases h : lessBy f g a b = true
    · exact .inl (lessBy_asymm h)
    · exact .inr (Bool.eq_false_iff.2 h)
  have trans : IsTrans α fun a b => lessBy f g b a = false := by
    refine ⟨fun a b c hab hbc => ?_⟩
    rw [lessBy_eq_false_iff] at hab hbc ⊢
    rcases hab with hab | ⟨hab, hab'⟩ <;> rcases hbc with hbc | ⟨hbc, hbc'⟩
    · exact .inl (Std.lt_trans hab hbc)
    · exact .inl (hbc ▸ hab)
    · exact .inl (hab ▸ hbc)
    · exact .inr ⟨hab.trans hbc, Std.le_trans hab' hbc'⟩
  exact ⟨List.perm_insertionSort _ _, List.pairwise_insertionSort _ _⟩

namespace Sorts

variable {xs xs' out out' : List α}

/-- With different second keys, the result increases strictly. -/
theorem increasing (h : Sorts (lessBy f g) xs out) (hg : (xs.map g).Nodup) :
    out.Pairwise fun a b => lessBy f g a b = true := by
  have hne : out.Pairwise fun a b => g a ≠ g b :=
    List.pairwise_map.1 ((h.perm.map g).nodup_iff.2 hg)
  exact h.ordered.imp₂ (fun _ _ => lessBy_of_ne) hne

/-- The order in which the elements were gathered does not matter. -/
theorem unique (h : Sorts (lessBy f g) xs out) (h' : Sorts (lessBy f g) xs' out')
    (hxs : xs.Perm xs') (hg : (xs.map g).Nodup) : out = out' := by
  refine List.Perm.eq_of_pairwise ?_ (h.increasing hg)
    (h'.increasing ((hxs.map g).nodup_iff.1 hg)) (h.perm.trans (hxs.trans h'.perm.symm))
  intro a b _ _ hab hba
  rw [lessBy_asymm hab] at hba
  cases hba

end Sorts

end TwoKeys

end SecretsBroker
