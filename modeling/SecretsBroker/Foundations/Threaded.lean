import SecretsBroker.Foundations.Interaction

/-!
# Programs answered along a state, and programs that are cut off

`Prog.thread` answers the calls of a program by programs over another signature, as `Prog.interp`
does, and passes a state from each answer to the next: the state of an encoder, of a connection or
of a cache that the program itself does not know about. `runs_thread` takes a run apart again.

A program that is cut off after some calls could have gone on (`Reaches.completes`), so what is
known of the calls of whole runs holds of the calls before any crash.
-/

namespace SecretsBroker.Interaction

variable {C C' : Type} {R : C → Type} {R' : C' → Type} {σ α β : Type}

/-! ## A state along the answers -/

/-- Answer the calls of a program by programs that take a state and leave one. -/
def Prog.thread (h : σ → (c : C) → Prog C' R' (R c × σ)) :
    Prog C R α → σ → Prog C' R' (α × σ)
  | .ret a, s => .ret (a, s)
  | .call c k, s => (h s c).bind fun x => (k x.1).thread h x.2

/-- `tr'` is `tr` with each call replaced by the calls of the program that answers it, while the
state goes from `s` to `s'`. -/
inductive Threads (h : σ → (c : C) → Prog C' R' (R c × σ)) :
    σ → Trace R → Trace R' → σ → Prop
  | nil (s : σ) : Threads h s [] [] s
  | cons {s s₁ s₂ : σ} {e : Event R} {tr : Trace R} {piece tr' : Trace R'}
    (hp : Runs (h s e.1) piece (e.2, s₁)) (ht : Threads h s₁ tr tr' s₂) :
    Threads h s (e :: tr) (piece ++ tr') s₂

theorem runs_thread {h : σ → (c : C) → Prog C' R' (R c × σ)} {p : Prog C R α} {s : σ}
    {tr' : Trace R'} {x : α × σ} (hr : Runs (p.thread h s) tr' x) :
    ∃ tr, Runs p tr x.1 ∧ Threads h s tr tr' x.2 := by
  induction p generalizing s tr' with
  | ret a =>
    obtain ⟨rfl, rfl⟩ := runs_ret.1 hr
    exact ⟨[], .ret _, .nil _⟩
  | call c k ih =>
    obtain ⟨piece, rest, y, rfl, h₁, h₂⟩ := runs_bind.1 hr
    obtain ⟨tr, h₃, h₄⟩ := ih y.1 h₂
    exact ⟨⟨c, y.1⟩ :: tr, .call y.1 h₃, .cons h₁ h₄⟩

theorem Threads.of_append {h : σ → (c : C) → Prog C' R' (R c × σ)} {s s' : σ}
    {tr₁ tr₂ : Trace R} {tr' : Trace R'} (ht : Threads h s (tr₁ ++ tr₂) tr' s') :
    ∃ tr₁' tr₂' s₁, tr' = tr₁' ++ tr₂' ∧ Threads h s tr₁ tr₁' s₁ ∧ Threads h s₁ tr₂ tr₂' s' := by
  induction tr₁ generalizing s tr' with
  | nil => exact ⟨[], tr', s, rfl, .nil s, ht⟩
  | cons e tr₁ ih =>
    cases ht with
    | cons hp ht =>
      obtain ⟨tr₁', tr₂', s₁, rfl, h₁, h₂⟩ := ih ht
      exact ⟨_, tr₂', s₁, (List.append_assoc _ _ _).symm, .cons hp h₁, h₂⟩

/-! ## Programs that are cut off -/

/-- The first calls of a program and then the rest of a run. -/
theorem Reaches.runs_append {p q : Prog C R α} {tr tr' : Trace R} {a : α} (h : Reaches p tr q)
    (hq : Runs q tr' a) : Runs p (tr ++ tr') a := by
  induction h with
  | refl p => exact hq
  | call r _ ih => exact .call r (ih hq)

theorem Runs.reaches {p : Prog C R α} {tr : Trace R} {a : α} (h : Runs p tr a) :
    Reaches p tr (.ret a) := by
  induction h with
  | ret a => exact .refl _
  | call r _ ih => exact .call r ih

/-- Where every call can be answered, a program that was cut off could have gone on to its end. -/
theorem Reaches.completes {p q : Prog C R α} {tr : Trace R} (h : Reaches p tr q)
    (env : (c : C) → R c) : ∃ rest a, Runs p (tr ++ rest) a :=
  ⟨(q.play env).1, (q.play env).2, h.runs_append (runs_play env q)⟩

/-- One more call. -/
theorem Reaches.snoc {p : Prog C R α} {tr : Trace R} {c : C} {k : R c → Prog C R α}
    (h : Reaches p tr (.call c k)) (r : R c) : Reaches p (tr ++ [⟨c, r⟩]) (k r) := by
  generalize hq : Prog.call c k = q at h
  induction h with
  | refl p =>
    subst hq
    exact .call r (.refl _)
  | call r' _ ih => exact .call r' (ih hq)

/-- A program that has made a call was about to make it before. -/
theorem Reaches.of_append_cons {p q : Prog C R α} {tr tr' : Trace R} {e : Event R}
    (h : Reaches p (tr ++ e :: tr') q) : ∃ k, Reaches p tr (.call e.1 k) := by
  induction tr generalizing p with
  | nil =>
    cases h with
    | @call _ k _ _ _ _ => exact ⟨k, .refl _⟩
  | cons e' tr ih =>
    cases h with
    | call r h₁ =>
      obtain ⟨k, hk⟩ := ih h₁
      exact ⟨k, .call r hk⟩

/-- The first `n` calls of a program, with the answers of `env`, and what is left of it. -/
def Prog.advance (env : (c : C) → R c) : ℕ → Prog C R α → Trace R × Prog C R α
  | 0, p => ([], p)
  | _ + 1, .ret a => ([], .ret a)
  | n + 1, .call c k =>
    let x := (k (env c)).advance env n
    (⟨c, env c⟩ :: x.1, x.2)

theorem reaches_advance (env : (c : C) → R c) (n : ℕ) (p : Prog C R α) :
    Reaches p (p.advance env n).1 (p.advance env n).2 := by
  induction n generalizing p with
  | zero => exact .refl p
  | succ n ih =>
    cases p with
    | ret a => exact .refl _
    | call c k => exact .call (env c) (ih _)

/-- Whether the program makes a call next, of which `test` holds. -/
def Prog.next (test : C → Bool) : Prog C R α → Bool
  | .ret _ => false
  | .call c _ => test c

theorem Prog.exists_of_next {test : C → Bool} {p : Prog C R α} (h : p.next test = true) :
    ∃ c k, p = .call c k ∧ test c = true := by
  cases p with
  | ret a => cases h
  | call c k => exact ⟨c, k, rfl, h⟩

/-! ## The calls of composed programs -/

theorem only_true (p : Prog C R α) : Only (fun _ => True) p := by
  induction p with
  | ret a => trivial
  | call c k ih => exact ⟨trivial, ih⟩

theorem Only.mono {P P' : C → Prop} {p : Prog C R α} (hp : Only P p) (h : ∀ c, P c → P' c) :
    Only P' p := by
  induction p with
  | ret a => trivial
  | call c k ih => exact ⟨h c hp.1, fun r => ih r (hp.2 r)⟩

theorem Only.interp {P : C → Prop} {P' : C' → Prop} {h : (c : C) → Prog C' R' (R c)}
    {p : Prog C R α} (hp : Only P p) (hh : ∀ c, P c → Only P' (h c)) : Only P' (p.interp h) := by
  induction p with
  | ret a => trivial
  | call c k ih => exact only_bind (hh c hp.1) fun r => ih r (hp.2 r)

theorem Only.thread {P : C → Prop} {P' : C' → Prop} {h : σ → (c : C) → Prog C' R' (R c × σ)}
    {p : Prog C R α} {s : σ} (hp : Only P p) (hh : ∀ s c, P c → Only P' (h s c)) :
    Only P' (p.thread h s) := by
  induction p generalizing s with
  | ret a => trivial
  | call c k ih => exact only_bind (hh s c hp.1) fun x => ih x.1 (hp.2 x.1)

/-- The calls that were made before a program was cut off. -/
theorem Only.of_reaches {P : C → Prop} {p q : Prog C R α} {tr : Trace R} (hp : Only P p)
    (h : Reaches p tr q) : ∀ e ∈ tr, P e.1 := by
  induction h with
  | refl p => simp
  | call r _ ih => exact List.forall_mem_cons.2 ⟨hp.1, ih (hp.2 r)⟩

/-! ## The place of a call in a run -/

/-- A call that is not among the first ones comes after all of them. -/
theorem split_right {E : Type} {l₁ l₂ l₁' l₂' : List E} {x : E}
    (h : l₁ ++ l₂ = l₁' ++ x :: l₂') (hx : x ∉ l₁) : ∃ l, l₁' = l₁ ++ l ∧ l₂ = l ++ x :: l₂' := by
  rcases List.append_eq_append_iff.1 h with ⟨l, h₁, h₂⟩ | ⟨l, h₁, h₂⟩
  · exact ⟨l, h₁, h₂⟩
  · cases l with
    | nil => exact ⟨[], by simpa using h₁.symm, by simpa using h₂.symm⟩
    | cons y l =>
      obtain ⟨rfl, -⟩ := List.cons.inj h₂
      exact absurd (by simp [h₁]) hx

/-- A call that is not among the last ones comes before all of them. -/
theorem split_left {E : Type} {l₁ l₂ l₁' l₂' : List E} {x : E}
    (h : l₁ ++ l₂ = l₁' ++ x :: l₂') (hx : x ∉ l₂) : ∃ l, l₁ = l₁' ++ x :: l := by
  rcases List.append_eq_append_iff.1 h with ⟨l, -, h₂⟩ | ⟨l, h₁, h₂⟩
  · exact absurd (by simp [h₂]) hx
  · cases l with
    | nil =>
      have : l₂ = x :: l₂' := by simpa using h₂.symm
      exact absurd (by simp [this]) hx
    | cons y l =>
      obtain ⟨rfl, -⟩ := List.cons.inj h₂
      exact ⟨l, h₁⟩

end SecretsBroker.Interaction
