import Mathlib.Data.List.Basic
import Mathlib.Tactic.Common

/-!
# Programs that call their environment

A program over a signature of calls either returns a value or makes one call and continues with
the answer. What the environment answers is not part of the program, so the same program is read in
three ways:

* `Runs p tr a`: some environment answers the calls of `p` as the trace `tr` records, and `p`
  returns `a`. A statement over all `tr` is a statement over every behaviour of the environment;
* `Reaches p tr q`: the same for an unfinished run, with `q` the program that is left. A crash after
  any call is a state of this kind;
* `ExecTo act w p tr w' q` and `Exec`: the environment is a state machine `act`, driven by one
  choice for each call.

`Conforms Next p q Post` says that every run of `p` follows the automaton `Next` from its state `q`,
whatever the answers are, and ends in a state related to its value by `Post`. It is proved along the
program (`conforms_bind`) and used along an execution (`ExecTo.induct_conforms`). Two cases of it
have rules of their own: the calls a program makes at all (`Only`), and calls that those before them
must justify (`Recorded`).

`Meets act Good I p w Q` is total: against the machine `act`, as long as its choices are good, `p`
keeps `I` and comes to an end in which `Q` holds. It is proved along the program as well
(`meets_bind`) and holds for what is left of it at any point of a run (`Meets.execTo`).
-/

namespace SecretsBroker.Interaction

variable {C : Type} {R : C → Type} {α β : Type}

/-- A program over the calls `C`, where the call `c` is answered by an element of `R c`. -/
inductive Prog (C : Type) (R : C → Type) (α : Type) where
  | ret (a : α)
  | call (c : C) (k : R c → Prog C R α)

/-- A call with its answer. -/
abbrev Event (R : C → Type) := Sigma R

/-- The calls of a run with their answers, in order. -/
abbrev Trace (R : C → Type) := List (Sigma R)

namespace Prog

/-- Run `p`, then `f` on its value. -/
def bind : Prog C R α → (α → Prog C R β) → Prog C R β
  | .ret a, f => f a
  | .call c k, f => .call c fun r => (k r).bind f

instance : Monad (Prog C R) where
  pure := .ret
  bind := .bind

/-- The program that makes one call and returns the answer. -/
def ask (c : C) : Prog C R (R c) := .call c .ret

theorem call_bind (c : C) (k : R c → Prog C R α) (f : α → Prog C R β) :
    (.call c k : Prog C R α) >>= f = .call c fun r => k r >>= f := rfl

theorem bind_ret (p : Prog C R α) : p.bind .ret = p := by
  induction p with
  | ret a => rfl
  | call c k ih => simp only [bind, ih]

theorem bind_bind {γ : Type} (p : Prog C R α) (f : α → Prog C R β) (g : β → Prog C R γ) :
    (p.bind f).bind g = p.bind fun a => (f a).bind g := by
  induction p with
  | ret a => rfl
  | call c k ih => simp only [bind, ih]

instance : LawfulMonad (Prog C R) :=
  LawfulMonad.mk' _ (fun p => bind_ret p) (fun _ _ => rfl) fun p f g => bind_bind p f g

end Prog

/-! ## Runs against any environment -/

/-- `Runs p tr a`: answering the calls of `p` as in `tr`, the program returns `a`. -/
inductive Runs : Prog C R α → Trace R → α → Prop
  | ret (a : α) : Runs (.ret a) [] a
  | call {c : C} {k : R c → Prog C R α} (r : R c) {tr : Trace R} {a : α} (h : Runs (k r) tr a) :
    Runs (.call c k) (⟨c, r⟩ :: tr) a

/-- `Reaches p tr q`: answering the first calls of `p` as in `tr` leaves the program `q`. -/
inductive Reaches : Prog C R α → Trace R → Prog C R α → Prop
  | refl (p : Prog C R α) : Reaches p [] p
  | call {c : C} {k : R c → Prog C R α} (r : R c) {tr : Trace R} {q : Prog C R α}
    (h : Reaches (k r) tr q) : Reaches (.call c k) (⟨c, r⟩ :: tr) q

@[simp] theorem runs_pure {a b : α} {tr : Trace R} :
    Runs (pure a : Prog C R α) tr b ↔ tr = [] ∧ b = a := by
  constructor
  · intro h
    cases h
    exact ⟨rfl, rfl⟩
  · rintro ⟨rfl, rfl⟩
    exact .ret _

@[simp] theorem runs_ret {a b : α} {tr : Trace R} :
    Runs (.ret a : Prog C R α) tr b ↔ tr = [] ∧ b = a := runs_pure

@[simp] theorem runs_call {c : C} {k : R c → Prog C R α} {tr : Trace R} {a : α} :
    Runs (.call c k) tr a ↔ ∃ r tr', tr = ⟨c, r⟩ :: tr' ∧ Runs (k r) tr' a := by
  constructor
  · intro h
    cases h with
    | call r h => exact ⟨r, _, rfl, h⟩
  · rintro ⟨r, tr', rfl, h⟩
    exact .call r h

theorem runs_bind {p : Prog C R α} {f : α → Prog C R β} {tr : Trace R} {b : β} :
    Runs (p >>= f) tr b ↔ ∃ tr₁ tr₂ a, tr = tr₁ ++ tr₂ ∧ Runs p tr₁ a ∧ Runs (f a) tr₂ b := by
  induction p generalizing tr with
  | ret a =>
    constructor
    · exact fun h => ⟨[], tr, a, rfl, .ret a, h⟩
    · rintro ⟨tr₁, tr₂, a', rfl, h, h'⟩
      cases h
      exact h'
  | call c k ih =>
    rw [Prog.call_bind, runs_call]
    constructor
    · rintro ⟨r, tr', rfl, h⟩
      obtain ⟨tr₁, tr₂, a, rfl, h₁, h₂⟩ := (ih r).1 h
      exact ⟨⟨c, r⟩ :: tr₁, tr₂, a, rfl, .call r h₁, h₂⟩
    · rintro ⟨tr₁, tr₂, a, rfl, h₁, h₂⟩
      cases h₁ with
      | call r h₁ => exact ⟨r, _, rfl, (ih r).2 ⟨_, _, _, rfl, h₁, h₂⟩⟩

@[simp] theorem runs_ask {c : C} {tr : Trace R} {r : R c} :
    Runs (Prog.ask c) tr r ↔ tr = [⟨c, r⟩] := by
  simp only [Prog.ask, runs_call, runs_ret]
  constructor
  · rintro ⟨r', tr', rfl, rfl, rfl⟩
    rfl
  · rintro rfl
    exact ⟨r, [], rfl, rfl, rfl⟩

/-- A first call followed by the rest. -/
theorem runs_ask_bind {c : C} {f : R c → Prog C R β} {tr : Trace R} {b : β} :
    Runs (Prog.ask c >>= f) tr b ↔ ∃ r tr', tr = ⟨c, r⟩ :: tr' ∧ Runs (f r) tr' b := by
  change Runs (.call c f) tr b ↔ _
  exact runs_call

/-! ## Calls answered by programs -/

/-- Answer the calls of a program by programs over another signature. -/
def Prog.interp {C' : Type} {R' : C' → Type} (h : (c : C) → Prog C' R' (R c)) :
    Prog C R α → Prog C' R' α
  | .ret a => .ret a
  | .call c k => (h c).bind fun r => (k r).interp h

/-- `tr'` is `tr` with each call replaced by the calls of the program that answers it. -/
inductive Interprets {C' : Type} {R' : C' → Type} (h : (c : C) → Prog C' R' (R c)) :
    Trace R → Trace R' → Prop
  | nil : Interprets h [] []
  | cons {e : Event R} {tr : Trace R} {piece tr' : Trace R'} (hp : Runs (h e.1) piece e.2)
    (ht : Interprets h tr tr') : Interprets h (e :: tr) (piece ++ tr')

theorem runs_interp {C' : Type} {R' : C' → Type} {h : (c : C) → Prog C' R' (R c)}
    {p : Prog C R α} {tr' : Trace R'} {a : α} (hr : Runs (p.interp h) tr' a) :
    ∃ tr, Runs p tr a ∧ Interprets h tr tr' := by
  induction p generalizing tr' with
  | ret b =>
    obtain ⟨rfl, rfl⟩ := runs_ret.1 hr
    exact ⟨[], .ret _, .nil⟩
  | call c k ih =>
    obtain ⟨piece, rest, r, rfl, h₁, h₂⟩ := runs_bind.1 hr
    obtain ⟨tr, h₃, h₄⟩ := ih r h₂
    exact ⟨⟨c, r⟩ :: tr, .call r h₃, .cons h₁ h₄⟩

theorem Interprets.of_append {C' : Type} {R' : C' → Type} {h : (c : C) → Prog C' R' (R c)}
    {tr₁ tr₂ : Trace R} {tr' : Trace R'} (hi : Interprets h (tr₁ ++ tr₂) tr') :
    ∃ tr₁' tr₂', tr' = tr₁' ++ tr₂' ∧ Interprets h tr₁ tr₁' ∧ Interprets h tr₂ tr₂' := by
  induction tr₁ generalizing tr' with
  | nil => exact ⟨[], tr', rfl, .nil, hi⟩
  | cons e tr₁ ih =>
    cases hi with
    | cons hp ht =>
      obtain ⟨tr₁', tr₂', rfl, h₁, h₂⟩ := ih ht
      exact ⟨_, tr₂', (List.append_assoc _ _ _).symm, .cons hp h₁, h₂⟩

/-- The run of a program against an environment that answers each call by a fixed function of the
call. -/
def Prog.play (env : (c : C) → R c) : Prog C R α → Trace R × α
  | .ret a => ([], a)
  | .call c k => (⟨c, env c⟩ :: ((k (env c)).play env).1, ((k (env c)).play env).2)

theorem runs_play (env : (c : C) → R c) (p : Prog C R α) :
    Runs p (p.play env).1 (p.play env).2 := by
  induction p with
  | ret a => exact .ret a
  | call c k ih => exact .call (env c) (ih (env c))

theorem mem_play {env : (c : C) → R c} {p : Prog C R α} {ev : Event R} (h : ev ∈ (p.play env).1) :
    ev.2 = env ev.1 := by
  induction p with
  | ret a => simp [Prog.play] at h
  | call c k ih =>
    rcases List.mem_cons.1 h with rfl | h
    · rfl
    · exact ih _ h

/-- The program that returns its calls as well, after those in `done`. -/
def Prog.logging (done : Trace R) : Prog C R α → Prog C R (Trace R × α)
  | .ret a => .ret (done, a)
  | .call c k => .call c fun r => (k r).logging (done ++ [⟨c, r⟩])

/-! ## Programs that follow an automaton -/

/-- Every run of the program follows `Next` from the state `q` and ends as `Post` says. -/
def Conforms {Q : Type} (Next : Q → (c : C) → R c → Q → Prop) :
    Prog C R α → Q → (α → Q → Prop) → Prop
  | .ret a, q, Post => Post a q
  | .call c k, q, Post => ∀ r, ∃ q', Next q c r q' ∧ Conforms Next (k r) q' Post

section Conforms

variable {Q : Type} {Next : Q → (c : C) → R c → Q → Prop} {q : Q}

theorem conforms_pure {a : α} {Post : α → Q → Prop} (h : Post a q) :
    Conforms Next (pure a : Prog C R α) q Post := h

theorem conforms_ask_bind {c : C} {f : R c → Prog C R β} {Post : β → Q → Prop}
    (h : ∀ r, ∃ q', Next q c r q' ∧ Conforms Next (f r) q' Post) :
    Conforms Next (Prog.ask c >>= f) q Post := h

theorem conforms_bind {p : Prog C R α} {f : α → Prog C R β} {Mid : α → Q → Prop}
    {Post : β → Q → Prop} (hp : Conforms Next p q Mid)
    (hf : ∀ a q', Mid a q' → Conforms Next (f a) q' Post) : Conforms Next (p >>= f) q Post := by
  induction p generalizing q with
  | ret a => exact hf a q hp
  | call c k ih =>
    intro r
    obtain ⟨q', hn, hk⟩ := hp r
    exact ⟨q', hn, ih r hk⟩

theorem conforms_mono {p : Prog C R α} {Post Post' : α → Q → Prop} (hp : Conforms Next p q Post)
    (h : ∀ a q', Post a q' → Post' a q') : Conforms Next p q Post' := by
  induction p generalizing q with
  | ret a => exact h a q hp
  | call c k ih =>
    intro r
    obtain ⟨q', hn, hk⟩ := hp r
    exact ⟨q', hn, ih r hk⟩

/-- An automaton that allows more. -/
theorem conforms_weaken {Next' : Q → (c : C) → R c → Q → Prop} {p : Prog C R α}
    {Post : α → Q → Prop} (hp : Conforms Next p q Post)
    (h : ∀ q c r q', Next q c r q' → Next' q c r q') : Conforms Next' p q Post := by
  induction p generalizing q with
  | ret a => exact hp
  | call c k ih =>
    intro r
    obtain ⟨q', hn, hk⟩ := hp r
    exact ⟨q', h q c r q' hn, ih r hk⟩

end Conforms

/-! ## Programs whose calls are justified by the calls before them -/

/-- Every call of the program is one of those that `P` says. -/
def Only (P : C → Prop) : Prog C R α → Prop
  | .ret _ => True
  | .call c k => P c ∧ ∀ r, Only P (k r)

/-- The automaton whose state is the trace so far; a call with its answer must be allowed by it. -/
def Recorded (Allowed : Trace R → Event R → Prop) (past : Trace R) (c : C) (r : R c)
    (past' : Trace R) : Prop :=
  past' = past ++ [⟨c, r⟩] ∧ Allowed past ⟨c, r⟩

section Recorded

variable {Allowed : Trace R → Event R → Prop} {past : Trace R} {P : C → Prop}

theorem only_ask_bind {c : C} {f : R c → Prog C R β} (hc : P c) (h : ∀ r, Only P (f r)) :
    Only P (Prog.ask c >>= f) := ⟨hc, h⟩

theorem only_bind {p : Prog C R α} {f : α → Prog C R β} (hp : Only P p) (hf : ∀ a, Only P (f a)) :
    Only P (p >>= f) := by
  induction p with
  | ret a => exact hf a
  | call c k ih => exact ⟨hp.1, fun r => ih r (hp.2 r)⟩

theorem Only.of_runs {p : Prog C R α} {tr : Trace R} {a : α} (hp : Only P p) (h : Runs p tr a) :
    ∀ ev ∈ tr, P ev.1 := by
  induction h with
  | ret a => simp
  | call r _ ih =>
    intro ev hev
    rcases List.mem_cons.1 hev with rfl | hev
    · exact hp.1
    · exact ih (hp.2 r) ev hev

theorem recorded_ask_bind {c : C} {f : R c → Prog C R β} {Post : β → Trace R → Prop}
    (ha : ∀ r, Allowed past ⟨c, r⟩)
    (h : ∀ r, Conforms (Recorded Allowed) (f r) (past ++ [⟨c, r⟩]) Post) :
    Conforms (Recorded Allowed) (Prog.ask c >>= f) past Post :=
  conforms_ask_bind fun r => ⟨past ++ [⟨c, r⟩], ⟨rfl, ha r⟩, h r⟩

/-- Calls that are allowed after any other calls. -/
theorem Only.recorded {p : Prog C R α} (hp : Only P p)
    (ha : ∀ past c r, P c → Allowed past ⟨c, r⟩) :
    Conforms (Recorded Allowed) p past fun _ past' =>
      ∃ new, past' = past ++ new ∧ ∀ ev ∈ new, P ev.1 := by
  induction p generalizing past with
  | ret a => exact ⟨[], by simp, by simp⟩
  | call c k ih =>
    intro r
    refine ⟨past ++ [⟨c, r⟩], ⟨rfl, ha past c r hp.1⟩, conforms_mono (ih r (hp.2 r)) ?_⟩
    rintro _ _ ⟨new, rfl, hnew⟩
    exact ⟨⟨c, r⟩ :: new, by simp, by simpa [hp.1] using hnew⟩

/-- In a run every call is allowed by the ones before it. -/
theorem Runs.allowed {p : Prog C R α} {tr : Trace R} {a : α} {Post : α → Trace R → Prop}
    (h : Runs p tr a) (hc : Conforms (Recorded Allowed) p past Post) {before after : Trace R}
    {ev : Event R} (htr : tr = before ++ ev :: after) : Allowed (past ++ before) ev := by
  induction h generalizing past before with
  | ret a => simp at htr
  | @call c k r tr a _ ih =>
    obtain ⟨past', ⟨rfl, ha⟩, hk⟩ := hc r
    cases before with
    | nil =>
      obtain ⟨rfl, -⟩ := List.cons.inj htr
      simpa using ha
    | cons x before =>
      rw [List.cons_append] at htr
      obtain ⟨rfl, htr'⟩ := List.cons.inj htr
      simpa using ih hk htr'

end Recorded

/-! ## Runs against a state machine -/

section Exec

variable {W Ch : Type} (act : W → Ch → (c : C) → Option (R c × W))

/-- Against `act` the first calls of `p` are answered as in `tr`, which leaves the world `w'` and
the program `q`. -/
inductive ExecTo : W → Prog C R α → Trace R → W → Prog C R α → Prop
  | refl (w : W) (p : Prog C R α) : ExecTo w p [] w p
  | call {w w' w'' : W} {c : C} {k : R c → Prog C R α} {ch : Ch} {r : R c} {tr : Trace R}
    {q : Prog C R α} (h : act w ch c = some (r, w')) (ht : ExecTo w' (k r) tr w'' q) :
    ExecTo w (.call c k) (⟨c, r⟩ :: tr) w'' q

/-- A finished run against `act`. -/
abbrev Exec (w : W) (p : Prog C R α) (tr : Trace R) (w' : W) (a : α) : Prop :=
  ExecTo act w p tr w' (.ret a)

variable {act}

/-- **What the steps of an execution preserve, given that the program conforms.** The invariant
relates the world, the state of the automaton and the calls made so far. -/
theorem ExecTo.induct_conforms {Q : Type} {Next : Q → (c : C) → R c → Q → Prop}
    {Post : α → Q → Prop} {Inv : W → Q → Trace R → Prop}
    (step : ∀ w q tr ch c r w' q', Inv w q tr → act w ch c = some (r, w') → Next q c r q' →
      Inv w' q' (tr ++ [⟨c, r⟩]))
    {w w' : W} {p p' : Prog C R α} {tr tr₀ : Trace R} {q : Q} (h : ExecTo act w p tr w' p')
    (hc : Conforms Next p q Post) (hi : Inv w q tr₀) :
    ∃ q', Conforms Next p' q' Post ∧ Inv w' q' (tr₀ ++ tr) := by
  induction h generalizing q tr₀ with
  | refl w p => exact ⟨q, hc, by simpa using hi⟩
  | @call w w₁ w₂ c k ch r tr p' hact _ ih =>
    obtain ⟨q₁, hn, hk⟩ := hc r
    obtain ⟨q', hc', hi'⟩ := ih hk (step w q tr₀ ch c r w₁ q₁ hi hact hn)
    exact ⟨q', hc', by simpa using hi'⟩

/-- A run of two programs in sequence, stopped in the first or in the second. -/
theorem execTo_bind {w w' : W} {p : Prog C R α} {f : α → Prog C R β} {tr : Trace R}
    {q : Prog C R β} (h : ExecTo act w (p >>= f) tr w' q) :
    (∃ p', ExecTo act w p tr w' p' ∧ q = p' >>= f) ∨
      ∃ tr₁ tr₂ w₁ a, tr = tr₁ ++ tr₂ ∧ Exec act w p tr₁ w₁ a ∧ ExecTo act w₁ (f a) tr₂ w' q := by
  induction p generalizing w tr with
  | ret a => exact .inr ⟨[], tr, w, a, rfl, .refl _ _, h⟩
  | call c k ih =>
    rw [Prog.call_bind] at h
    cases h with
    | refl => exact .inl ⟨.call c k, .refl _ _, rfl⟩
    | call hact ht =>
      rcases ih _ ht with ⟨p', hp', rfl⟩ | ⟨tr₁, tr₂, w₁, a, rfl, h₁, h₂⟩
      · exact .inl ⟨p', .call hact hp', rfl⟩
      · exact .inr ⟨_ :: tr₁, tr₂, w₁, a, rfl, .call hact h₁, h₂⟩

/-- A finished run of two programs in sequence. -/
theorem exec_bind {w w' : W} {p : Prog C R α} {f : α → Prog C R β} {tr : Trace R} {b : β}
    (h : Exec act w (p >>= f) tr w' b) :
    ∃ tr₁ tr₂ w₁ a, tr = tr₁ ++ tr₂ ∧ Exec act w p tr₁ w₁ a ∧ Exec act w₁ (f a) tr₂ w' b := by
  rcases execTo_bind h with ⟨p', hp', hq⟩ | h
  · cases p' with
    | ret a =>
      have hf : f a = .ret b := hq.symm
      exact ⟨tr, [], w', a, (List.append_nil tr).symm, hp', by rw [hf]; exact .refl _ _⟩
    | call c k => exact absurd hq (by rw [Prog.call_bind]; simp)
  · exact h

theorem exec_pure {w w' : W} {tr : Trace R} {a b : α}
    (h : Exec act w (pure a : Prog C R α) tr w' b) : tr = [] ∧ w' = w ∧ b = a := by
  cases h
  exact ⟨rfl, rfl, rfl⟩

/-- A first call and the rest of a finished run. -/
theorem exec_ask_bind {w w' : W} {c : C} {f : R c → Prog C R β} {tr : Trace R} {b : β}
    (h : Exec act w (Prog.ask c >>= f) tr w' b) :
    ∃ ch r w₁ tr', act w ch c = some (r, w₁) ∧ tr = ⟨c, r⟩ :: tr' ∧ Exec act w₁ (f r) tr' w' b := by
  change ExecTo act w (.call c f) tr w' (.ret b) at h
  cases h with
  | call hact ht => exact ⟨_, _, _, _, hact, rfl, ht⟩

variable (act) in
/-- The run under a list of choices, if they are enough and none of them is stuck. -/
def execWith : List Ch → W → Prog C R α → Option (Trace R × W × α)
  | _, w, .ret a => some ([], w, a)
  | [], _, .call _ _ => none
  | ch :: chs, w, .call c k =>
    match act w ch c with
    | none => none
    | some (r, w') => (execWith chs w' (k r)).map fun x => (⟨c, r⟩ :: x.1, x.2)

theorem exec_of_execWith {chs : List Ch} {w w' : W} {p : Prog C R α} {tr : Trace R} {a : α}
    (h : execWith act chs w p = some (tr, w', a)) : Exec act w p tr w' a := by
  induction chs generalizing w p tr with
  | nil =>
    cases p with
    | ret b =>
      obtain ⟨rfl, rfl, rfl⟩ : [] = tr ∧ w = w' ∧ b = a := by simpa [execWith] using h
      exact .refl _ _
    | call c k => simp [execWith] at h
  | cons ch chs ih =>
    cases p with
    | ret b =>
      obtain ⟨rfl, rfl, rfl⟩ : [] = tr ∧ w = w' ∧ b = a := by simpa [execWith] using h
      exact .refl _ _
    | call c k =>
      simp only [execWith] at h
      cases hact : act w ch c with
      | none => simp [hact] at h
      | some x =>
        simp only [hact, Option.map_eq_some_iff] at h
        obtain ⟨⟨tr', w'', b⟩, hrest, heq⟩ := h
        simp only [Prod.mk.injEq] at heq
        obtain ⟨rfl, rfl, rfl⟩ := heq
        exact .call hact (ih hrest)

/-- A computed run and what can be checked on its end. -/
theorem exists_exec_of_any {chs : List Ch} {w : W} {p : Prog C R α}
    {check : Trace R × W × α → Bool} (h : (execWith act chs w p).any check = true) :
    ∃ tr w' a, Exec act w p tr w' a ∧ check (tr, w', a) = true := by
  cases hx : execWith act chs w p with
  | none => simp [hx] at h
  | some x => exact ⟨x.1, x.2.1, x.2.2, exec_of_execWith hx, by simpa [hx] using h⟩

end Exec

/-! ## What a program guarantees, also where it is stopped -/

section Meets

variable {W Ch : Type} (act : W → Ch → (c : C) → Option (R c × W)) (Good : Ch → Prop)
  (I : W → Prop)

/-- Started in a world and as long as the choices are good, the program never lacks an answer to its
next call, keeps `I` at every call, and comes to an end, where `Q` holds. -/
def Meets : Prog C R α → W → (α → W → Prop) → Prop
  | .ret a, w, Q => I w ∧ Q a w
  | .call c k, w, Q => I w ∧ (∃ ch, Good ch ∧ (act w ch c).isSome = true) ∧
      ∀ ch r w', Good ch → act w ch c = some (r, w') → Meets (k r) w' Q

variable {act Good I} {w : W}

theorem meets_pure {a : α} {Q : α → W → Prop} (hi : I w) (h : Q a w) :
    Meets act Good I (pure a : Prog C R α) w Q := ⟨hi, h⟩

theorem meets_ask_bind {c : C} {f : R c → Prog C R β} {Q : β → W → Prop} (hi : I w)
    (hgo : ∃ ch, Good ch ∧ (act w ch c).isSome = true)
    (h : ∀ ch r w', Good ch → act w ch c = some (r, w') → Meets act Good I (f r) w' Q) :
    Meets act Good I (Prog.ask c >>= f) w Q := ⟨hi, hgo, h⟩

theorem meets_bind {p : Prog C R α} {f : α → Prog C R β} {Mid : α → W → Prop} {Q : β → W → Prop}
    (hp : Meets act Good I p w Mid) (hf : ∀ a w', I w' → Mid a w' → Meets act Good I (f a) w' Q) :
    Meets act Good I (p >>= f) w Q := by
  induction p generalizing w with
  | ret a => exact hf a w hp.1 hp.2
  | call c k ih => exact ⟨hp.1, hp.2.1, fun ch r w' hg hact => ih r (hp.2.2 ch r w' hg hact)⟩

theorem meets_mono {I' : W → Prop} {p : Prog C R α} {Q Q' : α → W → Prop}
    (hp : Meets act Good I p w Q) (hi : ∀ w', I w' → I' w') (hq : ∀ a w', Q a w' → Q' a w') :
    Meets act Good I' p w Q' := by
  induction p generalizing w with
  | ret a => exact ⟨hi w hp.1, hq a w hp.2⟩
  | call c k ih =>
    exact ⟨hi w hp.1, hp.2.1, fun ch r w' hg hact => ih r (hp.2.2 ch r w' hg hact)⟩

theorem Meets.inv {p : Prog C R α} {Q : α → W → Prop} (h : Meets act Good I p w Q) : I w := by
  cases p with
  | ret a => exact h.1
  | call c k => exact h.1

/-- Where every choice is good, what a program guarantees holds for what is left of it. -/
theorem Meets.execTo {p p' : Prog C R α} {Q : α → W → Prop} {tr : Trace R} {w' : W}
    (h : Meets act Good I p w Q) (hgood : ∀ ch, Good ch) (hx : ExecTo act w p tr w' p') :
    Meets act Good I p' w' Q := by
  induction hx with
  | refl => exact h
  | call hact _ ih => exact ih (h.2.2 _ _ _ (hgood _) hact)

/-- A run in which two guarantees hold at the end. -/
theorem Meets.common {p : Prog C R α} {Q Q' : α → W → Prop} {I' : W → Prop}
    (h : Meets act Good I p w Q) (h' : Meets act Good I' p w Q') : ∃ a w', Q a w' ∧ Q' a w' := by
  induction p generalizing w with
  | ret a => exact ⟨a, w, h.2, h'.2⟩
  | call c k ih =>
    obtain ⟨ch, hg, hsome⟩ := h.2.1
    obtain ⟨⟨r, w'⟩, hact⟩ := Option.isSome_iff_exists.1 hsome
    exact ih r (h.2.2 ch r w' hg hact) (h'.2.2 ch r w' hg hact)

end Meets

/-- In a list with a single element of a kind, that element is found in one place only. -/
theorem split_unique {E : Type} {P : E → Bool} {l₁ l₂ l₁' l₂' : List E} {x y : E}
    (h : l₁ ++ x :: l₂ = l₁' ++ y :: l₂') (h₁ : ∀ e ∈ l₁, P e = false) (h₂ : ∀ e ∈ l₂, P e = false)
    (hy : P y = true) : l₁' = l₁ ∧ y = x ∧ l₂' = l₂ := by
  induction l₁ generalizing l₁' with
  | nil =>
    cases l₁' with
    | nil =>
      simp only [List.nil_append, List.cons.injEq] at h
      exact ⟨rfl, h.1.symm, h.2.symm⟩
    | cons z l₁' =>
      simp only [List.nil_append, List.cons_append, List.cons.injEq] at h
      have := h₂ y (by simp [h.2])
      simp [hy] at this
  | cons w l₁ ih =>
    cases l₁' with
    | nil =>
      simp only [List.nil_append, List.cons_append, List.cons.injEq] at h
      have := h₁ w (by simp)
      simp [h.1, hy] at this
    | cons z l₁' =>
      simp only [List.cons_append, List.cons.injEq] at h
      obtain ⟨rfl, h⟩ := h
      obtain ⟨rfl, rfl, rfl⟩ := ih h fun e he => h₁ e (by simp [he])
      exact ⟨rfl, rfl, rfl⟩

end SecretsBroker.Interaction
