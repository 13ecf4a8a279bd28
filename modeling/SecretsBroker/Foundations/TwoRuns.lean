import Mathlib.Data.List.Forall2
import SecretsBroker.Foundations.Threaded

/-!
# Two runs side by side

`Tracks Rel p p' Post` compares two programs call by call: whatever the environment answers to a
call of `p`, some answer to the call of `p'` at the same place is related to it, and under related
answers the rest is compared in the same way; values that are returned are related by `Post`. So
every run of `p` has a counterpart that is a run of `p'` (`Tracks.runs`). It is proved along the
programs (`tracks_bind`), through programs that answer their calls (`tracks_interp`,
`tracks_thread`), and for free where a program makes only calls that the relation leaves alone
(`Only.tracks`).
-/

namespace SecretsBroker.Interaction

variable {C C' : Type} {R : C → Type} {R' : C' → Type} {α β γ δ : Type}

/-- Each call of `p` is matched by one of `p'`, under related answers. -/
def Tracks (Rel : Event R → Event R' → Prop) :
    Prog C R α → Prog C' R' β → (α → β → Prop) → Prop
  | .ret a, .ret b, Post => Post a b
  | .call c k, .call c' k', Post => (∀ r, ∃ r', Rel ⟨c, r⟩ ⟨c', r'⟩) ∧
      ∀ r r', Rel ⟨c, r⟩ ⟨c', r'⟩ → Tracks Rel (k r) (k' r') Post
  | _, _, _ => False

section Rules

variable {Rel : Event R → Event R' → Prop}

theorem tracks_pure {a : α} {b : β} {Post : α → β → Prop} (h : Post a b) :
    Tracks Rel (pure a : Prog C R α) (pure b : Prog C' R' β) Post := h

theorem tracks_ask_bind {c : C} {c' : C'} {f : R c → Prog C R α} {f' : R' c' → Prog C' R' β}
    {Post : α → β → Prop} (hr : ∀ r, ∃ r', Rel ⟨c, r⟩ ⟨c', r'⟩)
    (h : ∀ r r', Rel ⟨c, r⟩ ⟨c', r'⟩ → Tracks Rel (f r) (f' r') Post) :
    Tracks Rel (Prog.ask c >>= f) (Prog.ask c' >>= f') Post := ⟨hr, h⟩

theorem tracks_ask {c : C} {c' : C'} (hr : ∀ r, ∃ r', Rel ⟨c, r⟩ ⟨c', r'⟩) :
    Tracks Rel (Prog.ask c) (Prog.ask c') fun r r' => Rel ⟨c, r⟩ ⟨c', r'⟩ := ⟨hr, fun _ _ h => h⟩

theorem tracks_bind {p : Prog C R α} {p' : Prog C' R' β} {f : α → Prog C R γ}
    {f' : β → Prog C' R' δ} {Mid : α → β → Prop} {Post : γ → δ → Prop}
    (hp : Tracks Rel p p' Mid) (hf : ∀ a b, Mid a b → Tracks Rel (f a) (f' b) Post) :
    Tracks Rel (p >>= f) (p' >>= f') Post := by
  induction p generalizing p' with
  | ret a =>
    cases p' with
    | ret b => exact hf a b hp
    | call c' k' => exact hp.elim
  | call c k ih =>
    cases p' with
    | ret b => exact hp.elim
    | call c' k' => exact ⟨hp.1, fun r r' hr => ih r (hp.2 r r' hr)⟩

theorem tracks_mono {p : Prog C R α} {p' : Prog C' R' β} {Post Post' : α → β → Prop}
    (hp : Tracks Rel p p' Post) (h : ∀ a b, Post a b → Post' a b) : Tracks Rel p p' Post' := by
  induction p generalizing p' with
  | ret a =>
    cases p' with
    | ret b => exact h a b hp
    | call c' k' => exact hp.elim
  | call c k ih =>
    cases p' with
    | ret b => exact hp.elim
    | call c' k' => exact ⟨hp.1, fun r r' hr => ih r (hp.2 r r' hr)⟩

/-- **A run has its counterpart.** -/
theorem Tracks.runs {p : Prog C R α} {p' : Prog C' R' β} {Post : α → β → Prop}
    (h : Tracks Rel p p' Post) {tr : Trace R} {a : α} (hr : Runs p tr a) :
    ∃ tr' b, Runs p' tr' b ∧ List.Forall₂ Rel tr tr' ∧ Post a b := by
  induction hr generalizing p' with
  | ret a =>
    cases p' with
    | ret b => exact ⟨[], b, .ret b, .nil, h⟩
    | call c' k' => exact h.elim
  | @call c k r tr a _ ih =>
    cases p' with
    | ret b => exact h.elim
    | call c' k' =>
      obtain ⟨r', hrel⟩ := h.1 r
      obtain ⟨tr', b, hrun, hall, hpost⟩ := ih (h.2 r r' hrel)
      exact ⟨⟨c', r'⟩ :: tr', b, .call r' hrun, .cons hrel hall, hpost⟩

end Rules

/-- A relation leaves a call alone: it relates each answer to itself, and to no other. -/
def Unmoved (Rel : Event R → Event R → Prop) (c : C) : Prop :=
  ∀ r r', Rel ⟨c, r⟩ ⟨c, r'⟩ ↔ r' = r

theorem Only.tracks {Rel : Event R → Event R → Prop} {p : Prog C R α}
    (h : Only (Unmoved Rel) p) : Tracks Rel p p Eq := by
  induction p with
  | ret a => exact rfl
  | call c k ih =>
    refine ⟨fun r => ⟨r, (h.1 r r).2 rfl⟩, fun r r' hr => ?_⟩
    obtain rfl := (h.1 r r').1 hr
    exact ih r' (h.2 r')

/-- A call that is left alone, and what follows. -/
theorem tracks_unmoved {Rel : Event R → Event R → Prop} {c : C} {f : R c → Prog C R α}
    {f' : R c → Prog C R β} {Post : α → β → Prop} (hc : Unmoved Rel c)
    (h : ∀ r, Tracks Rel (f r) (f' r) Post) :
    Tracks Rel (Prog.ask c >>= f) (Prog.ask c >>= f') Post := by
  refine tracks_ask_bind (fun r => ⟨r, (hc r r).2 rfl⟩) fun r r' hr => ?_
  obtain rfl := (hc r r').1 hr
  exact h r'

section Layers

variable {D D' : Type} {S : D → Type} {S' : D' → Type} {σ : Type}
  {Rel : Event R → Event R' → Prop} {Low : Event S → Event S' → Prop}

/-- Calls that are answered by programs over other calls. -/
theorem tracks_interp {h : (c : C) → Prog D S (R c)} {h' : (c : C') → Prog D' S' (R' c)}
    (hh : ∀ c c', (∀ r, ∃ r', Rel ⟨c, r⟩ ⟨c', r'⟩) →
      Tracks Low (h c) (h' c') fun r r' => Rel ⟨c, r⟩ ⟨c', r'⟩)
    {p : Prog C R α} {p' : Prog C' R' β} {Post : α → β → Prop} (hp : Tracks Rel p p' Post) :
    Tracks Low (p.interp h) (p'.interp h') Post := by
  induction p generalizing p' with
  | ret a =>
    cases p' with
    | ret b => exact hp
    | call c' k' => exact hp.elim
  | call c k ih =>
    cases p' with
    | ret b => exact hp.elim
    | call c' k' => exact tracks_bind (hh c c' hp.1) fun r r' hr => ih r (hp.2 r r' hr)

/-- Calls that are answered along a state. -/
theorem tracks_thread {h : σ → (c : C) → Prog D S (R c × σ)}
    {h' : σ → (c : C') → Prog D' S' (R' c × σ)}
    (hh : ∀ s c c', (∀ r, ∃ r', Rel ⟨c, r⟩ ⟨c', r'⟩) →
      Tracks Low (h s c) (h' s c') fun x x' => Rel ⟨c, x.1⟩ ⟨c', x'.1⟩ ∧ x.2 = x'.2)
    {p : Prog C R α} {p' : Prog C' R' β} {Post : α → β → Prop} (hp : Tracks Rel p p' Post) (s : σ) :
    Tracks Low (p.thread h s) (p'.thread h' s) fun x x' => Post x.1 x'.1 ∧ x.2 = x'.2 := by
  induction p generalizing p' s with
  | ret a =>
    cases p' with
    | ret b => exact ⟨hp, rfl⟩
    | call c' k' => exact hp.elim
  | call c k ih =>
    cases p' with
    | ret b => exact hp.elim
    | call c' k' =>
      refine tracks_bind (hh s c c' hp.1) fun x x' hx => ?_
      rw [← hx.2]
      exact ih x.1 (hp.2 x.1 x'.1 hx.1) x.2

end Layers

end SecretsBroker.Interaction
