import Mathlib.Data.List.Forall2
import Mathlib.Tactic.Choose
import Mathlib.Tactic.Common

/-!
# Computations that may fail

When a sequence of checks succeeds: the first one does and the rest does (`bind_eq_ok`), a guard
lets pass (`throw_if_eq_ok`), a loop succeeds for each element (`mapM_eq_ok_iff`), and a loop that
refuses a key that it has seen succeeds on lists without a repeated key (`seen_eq_ok_iff`).
-/

namespace SecretsBroker.Fallible

variable {ε α β : Type}

/-- In a sequence of checks the first step succeeded, and so did the rest. -/
theorem bind_eq_ok {x : Except ε α} {f : α → Except ε β} {b : β} :
    x >>= f = .ok b ↔ ∃ a, x = .ok a ∧ f a = .ok b := by
  cases x with
  | error e => simp [bind, Except.bind]
  | ok a => simp [bind, Except.bind]

theorem throw_if_eq_ok {c : Prop} [Decidable c] {e : ε} {x : Except ε α} {a : α} :
    (if c then (throw e : Except ε PUnit) >>= fun _ => x else x) = .ok a ↔ ¬ c ∧ x = .ok a := by
  by_cases h : c
  · simp [h, throw, throwThe, MonadExceptOf.throw, bind, Except.bind]
  · simp [h]

theorem throw_else_eq_ok {c : Prop} [Decidable c] {e : ε} :
    (if c then throw e else pure () : Except ε Unit) = .ok () ↔ ¬ c := by
  by_cases h : c
  · simp [h, throw, throwThe, MonadExceptOf.throw]
  · simp [h, pure, Except.pure]

/-! ## A function on each element -/

section MapM

variable {f : α → Except ε β} {l : List α} {out : List β}

theorem mapM_eq_ok_iff : l.mapM f = .ok out ↔ l.map f = out.map .ok := by
  induction l generalizing out with
  | nil =>
    rw [List.mapM_nil, List.map_nil, List.nil_eq, List.map_eq_nil_iff]
    exact ⟨fun h => (Except.ok.inj h).symm, fun h => h ▸ rfl⟩
  | cons a l ih =>
    rw [List.mapM_cons, List.map_cons]
    constructor
    · intro h
      obtain ⟨b, hb, h⟩ := bind_eq_ok.1 h
      obtain ⟨bs, hbs, h⟩ := bind_eq_ok.1 h
      obtain rfl := Except.ok.inj h
      rw [hb, ih.1 hbs, List.map_cons]
    · intro h
      obtain ⟨b, bs, rfl, hb, hbs⟩ := List.map_eq_cons_iff.1 h.symm
      rw [← hb, ih.2 hbs.symm]
      rfl

/-- What the loop returns, element by element. -/
theorem forall₂_of_mapM (h : l.mapM f = .ok out) : List.Forall₂ (fun a b => f a = .ok b) l out := by
  have hmap := mapM_eq_ok_iff.1 h
  rw [← List.forall₂_eq_eq_eq, List.forall₂_map_left_iff, List.forall₂_map_right_iff] at hmap
  exact hmap

/-- The loop succeeds if it does for each element. -/
theorem exists_mapM_iff : (∃ out, l.mapM f = .ok out) ↔ ∀ a ∈ l, ∃ b, f a = .ok b := by
  simp only [mapM_eq_ok_iff]
  constructor
  · rintro ⟨out, h⟩ a ha
    have hmem : f a ∈ out.map .ok := h ▸ List.mem_map_of_mem ha
    obtain ⟨b, -, hb⟩ := List.mem_map.1 hmem
    exact ⟨b, hb.symm⟩
  · intro h
    choose g hg using h
    refine ⟨l.pmap g fun _ h => h, ?_⟩
    rw [List.map_pmap, ← List.pmap_eq_map fun _ h => h]
    exact List.pmap_congr_left l fun a ha _ _ => hg a ha

end MapM

/-! ## A check that remembers keys -/

/-- A loop that checks each element and refuses a key that it has seen before. -/
theorem seen_eq_ok_iff {key : α → β} {P : α → Prop} {loop : List β → List α → Except ε Unit}
    (hnil : ∀ seen, loop seen [] = .ok ())
    (hcons : ∀ seen a l, loop seen (a :: l) = .ok () ↔
      (key a ∉ seen ∧ P a) ∧ loop (key a :: seen) l = .ok ()) {seen : List β} {l : List α} :
    loop seen l = .ok () ↔
      (l.map key).Nodup ∧ (∀ a ∈ l, key a ∉ seen) ∧ ∀ a ∈ l, P a := by
  induction l generalizing seen with
  | nil => simp [hnil]
  | cons a l ih =>
    rw [hcons, ih, List.map_cons, List.nodup_cons]
    simp only [List.mem_cons, not_or, forall_eq_or_imp, List.mem_map, not_exists, not_and]
    constructor
    · rintro ⟨⟨hseen, ha⟩, hnodup, hfresh, hl⟩
      exact ⟨⟨fun b hb => (hfresh b hb).1, hnodup⟩, ⟨hseen, fun b hb => (hfresh b hb).2⟩, ha, hl⟩
    · rintro ⟨⟨hne, hnodup⟩, ⟨hseen, hfresh⟩, ha, hl⟩
      exact ⟨⟨hseen, ha⟩, hnodup, fun b hb => ⟨hne b hb, hfresh b hb⟩, hl⟩

end SecretsBroker.Fallible
