import Mathlib.Logic.Function.Basic
import Mathlib.Logic.Relation
import SecretsBroker.Foundations.Interaction

/-!
# Programs that work on one state

Several programs work on a state that they share, one call at a time and in any order (`Pool.Step`).
A program that is never scheduled again is one that was cut off, so the states that are reached
include those after a crash.

Each program is proved by itself. It relies on the others to change the state only in certain ways
(`Contract.Rely`), and it guarantees that its own calls keep an invariant of the state and what each
of the others relies on (`Guards`). `Pool.guarded` puts the programs together: in every state that
is reached the invariant holds, and every program still guards what is left of it.
-/

namespace SecretsBroker.Interaction

variable {C : Type} {R : C → Type} {α β ι W Ch : Type}

/-- The state, and what is left of each program. -/
structure Pool (C : Type) (R : C → Type) (α ι W : Type) where
  state : W
  left : ι → Prog C R α

section Steps

variable [DecidableEq ι] (act : ι → W → Ch → (c : C) → Option (R c × W))

/-- One call of one program. -/
inductive Pool.Step (p : Pool C R α ι W) : Pool C R α ι W → Prop
  | call {i : ι} {c : C} {k : R c → Prog C R α} {ch : Ch} {r : R c} {w : W}
    (hp : p.left i = .call c k) (hact : act i p.state ch c = some (r, w)) :
    Pool.Step p ⟨w, Function.update p.left i (k r)⟩

/-- The states that some interleaving reaches. -/
abbrev Pool.Reaches : Pool C R α ι W → Pool C R α ι W → Prop :=
  Relation.ReflTransGen (Pool.Step act)

/-- The next call of a program, if a choice answers it. -/
def Pool.tick (p : Pool C R α ι W) (i : ι) (ch : Ch) : Option (Pool C R α ι W) :=
  match p.left i with
  | .ret _ => none
  | .call c k => (act i p.state ch c).map fun x => ⟨x.2, Function.update p.left i (k x.1)⟩

/-- The calls of a schedule. -/
def Pool.run (p : Pool C R α ι W) : List (ι × Ch) → Option (Pool C R α ι W)
  | [] => some p
  | (i, ch) :: rest => (p.tick act i ch).bind fun p' => p'.run rest

variable {act} {p p' : Pool C R α ι W}

theorem Pool.step_of_tick {i : ι} {ch : Ch} (h : p.tick act i ch = some p') :
    Pool.Step act p p' := by
  unfold Pool.tick at h
  cases hp : p.left i with
  | ret a => simp [hp] at h
  | call c k =>
    simp only [hp, Option.map_eq_some_iff] at h
    obtain ⟨⟨r, w⟩, hact, rfl⟩ := h
    exact .call hp hact

theorem Pool.reaches_of_run {schedule : List (ι × Ch)} (h : p.run act schedule = some p') :
    Pool.Reaches act p p' := by
  induction schedule generalizing p with
  | nil => exact Option.some.inj h ▸ .refl
  | cons x rest ih =>
    obtain ⟨p₁, h₁, h₂⟩ := Option.bind_eq_some_iff.1 h
    exact .head (Pool.step_of_tick h₁) (ih h₂)

end Steps

/-- The terms on which programs share a state. -/
structure Contract (C : Type) (R : C → Type) (ι W Ch : Type) where
  act : ι → W → Ch → (c : C) → Option (R c × W)
  Inv : W → Prop
  /-- What the program relies on between two of its own calls. -/
  Rely : ι → W → W → Prop
  refl : ∀ i w, Rely i w w
  trans : ∀ {i w₁ w₂ w₃}, Rely i w₁ w₂ → Rely i w₂ w₃ → Rely i w₁ w₃

section Guards

variable (t : Contract C R ι W Ch) (i : ι)

/-- Whatever the others do between two calls of the program `i`, each of its calls keeps the
invariant and what the others rely on, and at its end `Q` holds. -/
def Guards : Prog C R α → W → (α → W → Prop) → Prop
  | .ret a, w, Q => Q a w
  | .call c k, w, Q => ∀ w₁, t.Rely i w w₁ → t.Inv w₁ → ∀ ch r w₂, t.act i w₁ ch c = some (r, w₂) →
      t.Inv w₂ ∧ (∀ j ≠ i, t.Rely j w₁ w₂) ∧ Guards (k r) w₂ Q

variable {t i} {w w' : W}

theorem guards_pure {a : α} {Q : α → W → Prop} (h : Q a w) :
    Guards t i (pure a : Prog C R α) w Q := h

theorem guards_bind {p : Prog C R α} {f : α → Prog C R β} {Mid : α → W → Prop} {Q : β → W → Prop}
    (hp : Guards t i p w Mid) (hf : ∀ a w', Mid a w' → Guards t i (f a) w' Q) :
    Guards t i (p >>= f) w Q := by
  induction p generalizing w with
  | ret a => exact hf a w hp
  | call c k ih =>
    intro w₁ hrely hinv ch r w₂ hact
    obtain ⟨hinv', hothers, hk⟩ := hp w₁ hrely hinv ch r w₂ hact
    exact ⟨hinv', hothers, ih r hk⟩

/-- A call under an assertion that the others keep. -/
theorem guards_ask_bind {c : C} {f : R c → Prog C R β} {Q : β → W → Prop} {A : W → Prop} (hA : A w)
    (hstable : ∀ w w', A w → t.Rely i w w' → A w')
    (h : ∀ w ch r w', A w → t.Inv w → t.act i w ch c = some (r, w') →
      t.Inv w' ∧ (∀ j ≠ i, t.Rely j w w') ∧ Guards t i (f r) w' Q) :
    Guards t i (Prog.ask c >>= f) w Q :=
  fun w₁ hrely hinv ch r w₂ => h w₁ ch r w₂ (hstable w w₁ hA hrely) hinv

/-- The others may move before the first call. -/
theorem Guards.of_rely {p : Prog C R α} (h : Guards t i p w fun _ _ => True)
    (hrely : t.Rely i w w') : Guards t i p w' fun _ _ => True := by
  cases p with
  | ret a => trivial
  | call c k => exact fun w₁ hrely' => h w₁ (t.trans hrely hrely')

variable [DecidableEq ι] {p p' : Pool C R α ι W}

theorem Pool.Step.guarded (hs : Pool.Step t.act p p') (hinv : t.Inv p.state)
    (hp : ∀ i, Guards t i (p.left i) p.state fun _ _ => True) :
    t.Inv p'.state ∧ ∀ i, Guards t i (p'.left i) p'.state fun _ _ => True := by
  cases hs with
  | @call i c k ch r w hleft hact =>
    have hi := hp i
    rw [hleft] at hi
    obtain ⟨hinv', hothers, hk⟩ := hi p.state (t.refl i p.state) hinv ch r w hact
    refine ⟨hinv', fun j => ?_⟩
    change Guards t j (Function.update p.left i (k r) j) w _
    by_cases hj : j = i
    · subst hj
      rwa [Function.update_self]
    · rw [Function.update_of_ne hj]
      exact (hp j).of_rely (hothers j hj)

/-- **In every state that is reached the invariant holds**, and every program guards what is left of
it. -/
theorem Pool.guarded (h : Pool.Reaches t.act p p') (hinv : t.Inv p.state)
    (hp : ∀ i, Guards t i (p.left i) p.state fun _ _ => True) :
    t.Inv p'.state ∧ ∀ i, Guards t i (p'.left i) p'.state fun _ _ => True := by
  induction h with
  | refl => exact ⟨hinv, hp⟩
  | tail _ hs ih => exact hs.guarded ih.1 ih.2

end Guards

end SecretsBroker.Interaction
