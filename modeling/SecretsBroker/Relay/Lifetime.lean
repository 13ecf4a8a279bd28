import Mathlib.Data.List.Infix
import SecretsBroker.Relay.Store

/-!
# The life of a stored request

A run of the relay's table is a list of calls with the times they are made at. `call_entry` says
what one call does to a request that is in the table before and after it: nothing, or it is the one
successful `Decide`. From this, by induction over the run, `store_invariant`: the table keeps to its
limit, a request keeps its prompt and its times while it is there and is decided at most once and in
time, a call that fails changes nothing, and `Sweep` removes the requests whose deadline is older
than its bound and no others, so none that could still be decided.
-/

namespace SecretsBroker.Relay

/-- The calls on a table. -/
inductive StoreCall
  | create (id prompt : Bytes) (ttl : ℤ)
  | get (id : Bytes)
  | pending
  | decide (id : Bytes) (approve : Bool)
  | sweep (olderThan : ℤ)

abbrev StoreCall.Answer : StoreCall → Type
  | .create _ _ _ | .decide _ _ => Except StoreError Unit
  | .get _ => Except StoreError Request
  | .pending => List Request
  | .sweep _ => ℕ

/-- The call has returned an error. -/
def StoreCall.Fails : (c : StoreCall) → c.Answer → Prop
  | .create _ _ _, r | .decide _ _, r => ∃ e, r = .error e
  | .get _, r => ∃ e, r = .error e
  | .pending, _ | .sweep _, _ => False

namespace Store

/-- The result of a mutation that may fail, with the table it leaves. -/
def settle (s : Store) : Except StoreError Store → Except StoreError Unit × Store
  | .error e => (.error e, s)
  | .ok s' => (.ok (), s')

/-- A call at a time. -/
def call (s : Store) (now : ℤ) : (c : StoreCall) → c.Answer × Store
  | .create id prompt ttl => s.settle (s.create now id prompt ttl)
  | .get id => (s.get now id, s)
  | .pending => (s.pending now, s)
  | .decide id approve => s.settle (s.decide now id approve)
  | .sweep olderThan => s.sweep now olderThan

/-- The table after a run. -/
def after (s : Store) : List (ℤ × StoreCall) → Store
  | [] => s
  | (now, c) :: cs => (s.call now c).2.after cs

/-- The decision that a call records for an id, if it is a `Decide` that succeeds. -/
def decided (s : Store) (now : ℤ) (id : Bytes) : StoreCall → Option (ℤ × Bool)
  | .decide id' approve =>
    if id' = id ∧ (s.decide now id' approve).isOk then some (now, approve) else none
  | _ => none

/-- The decisions that a run records for an id. -/
def decisions (s : Store) (id : Bytes) : List (ℤ × StoreCall) → List (ℤ × Bool)
  | [] => []
  | (now, c) :: cs => (s.decided now id c).toList ++ (s.call now c).2.decisions id cs

/-- The request of an id is in the table before, during and after a run. -/
def Survives (s : Store) (id : Bytes) (cs : List (ℤ × StoreCall)) : Prop :=
  ∀ before, before <+: cs → (s.after before).lookup id ≠ none

/-! ## One call -/

section Call

variable {s : Store} {now : ℤ} {id : Bytes} {r r' : Request}

theorem lookup_unique (h : s.lookup id = some r) (hmem : r' ∈ s.requests) (hid : r'.id = id) :
    r' = r := by
  have h' := lookup_eq_some.2 ⟨hmem, hid⟩
  exact Option.some.inj (h'.symm.trans h)

/-- What a decision makes of a request. -/
def Request.withDecision (r : Request) (approve : Bool) : Request :=
  { r with status := if approve then .approved else .denied }

/-- **What a call does to a request**: nothing, or it is decided. -/
theorem call_entry (c : StoreCall) (h : s.lookup id = some r)
    (h' : (s.call now c).2.lookup id = some r') :
    (s.decided now id c = none ∧ r' = r) ∨ ∃ approve, s.decided now id c = some (now, approve) ∧
      r.status = .pending ∧ now ≤ r.deadline ∧ r' = Request.withDecision r approve := by
  have hmem := lookup_mem h'
  have hid := lookup_id h'
  cases c with
  | create id' prompt ttl =>
    refine .inl ⟨rfl, ?_⟩
    cases hc : s.create now id' prompt ttl with
    | error e =>
      simp only [call, settle, hc] at h'
      exact Option.some.inj (h'.symm.trans h)
    | ok s' =>
      simp only [call, settle, hc] at hmem
      obtain ⟨hnew, hiff⟩ := create_ok hc
      rcases (hiff r').1 hmem with hold | rfl
      · exact lookup_unique h hold hid
      · -- the id of the new request was free
        simp only at hid
        rw [hid, h] at hnew
        simp at hnew
  | get id' => exact .inl ⟨rfl, Option.some.inj (h'.symm.trans h)⟩
  | pending => exact .inl ⟨rfl, Option.some.inj (h'.symm.trans h)⟩
  | decide id' approve =>
    cases hc : s.decide now id' approve with
    | error e =>
      simp only [call, settle, hc] at h'
      exact .inl ⟨by simp [decided, hc, Except.isOk, Except.toBool],
        Option.some.inj (h'.symm.trans h)⟩
    | ok s' =>
      obtain ⟨r₀, hr₀, hpending, hle, rfl⟩ := decide_ok hc
      simp only [call, settle, hc] at hmem
      by_cases heq : id' = id
      · subst heq
        obtain rfl : r₀ = r := Option.some.inj (hr₀.symm.trans h)
        refine .inr ⟨approve, by simp [decided, hc, Except.isOk, Except.toBool], hpending, hle, ?_⟩
        rcases mem_setStatus.1 hmem with ⟨-, hne⟩ | ⟨r₁, hr₁, hid₁, rfl⟩
        · exact absurd hid hne
        · rw [lookup_unique h hr₁ hid₁]
          rfl
      · refine .inl ⟨by simp [decided, heq], ?_⟩
        rcases mem_setStatus.1 hmem with ⟨hold, -⟩ | ⟨r₁, hr₁, hid₁, rfl⟩
        · exact lookup_unique h hold hid
        · exact absurd (hid₁.symm.trans hid) heq
  | sweep olderThan => exact .inl ⟨rfl, lookup_unique h (mem_of_mem_sweep hmem) hid⟩

end Call

/-- A call that fails leaves the table as it is. -/
theorem call_of_fails {s : Store} {now : ℤ} {c : StoreCall} (h : c.Fails (s.call now c).1) :
    (s.call now c).2 = s := by
  have settled : ∀ x : Except StoreError Store, (∃ e, (s.settle x).1 = .error e) →
      (s.settle x).2 = s := by
    intro x hx
    cases x with
    | error e => rfl
    | ok s' =>
      obtain ⟨e, he⟩ := hx
      simp [settle] at he
  cases c with
  | create id prompt ttl => exact settled _ h
  | get id => rfl
  | pending => rfl
  | decide id approve => exact settled _ h
  | sweep olderThan => exact h.elim

/-- A request is created where there is room for it. -/
theorem create_room {s s' : Store} {now ttl : ℤ} {id prompt : Bytes}
    (h : s.create now id prompt ttl = .ok s') :
    s'.limit = s.limit ∧ (s.requests.length : ℤ) < s.limit ∧
      s'.requests.length = s.requests.length + 1 := by
  unfold create at h
  split_ifs at h with hid hfull
  obtain rfl := Except.ok.inj h
  exact ⟨rfl, Int.not_le.1 hfull, by simp⟩

/-- A table within its limit stays within it. -/
theorem call_within (s : Store) (now : ℤ) (c : StoreCall) :
    (s.call now c).2.limit = s.limit ∧
      ((s.requests.length : ℤ) ≤ max s.limit 0 →
        ((s.call now c).2.requests.length : ℤ) ≤ max s.limit 0) := by
  cases c with
  | create id prompt ttl =>
    cases hc : s.create now id prompt ttl with
    | error e =>
      rw [call, hc]
      exact ⟨rfl, fun h => h⟩
    | ok s' =>
      obtain ⟨hlimit, hroom, hlen⟩ := create_room hc
      rw [call, hc]
      refine ⟨hlimit, fun _ => ?_⟩
      simp only [settle]
      omega
  | get id => exact ⟨rfl, fun h => h⟩
  | pending => exact ⟨rfl, fun h => h⟩
  | decide id approve =>
    cases hc : s.decide now id approve with
    | error e =>
      rw [call, hc]
      exact ⟨rfl, fun h => h⟩
    | ok s' =>
      obtain ⟨r, -, -, -, rfl⟩ := decide_ok hc
      rw [call, hc]
      exact ⟨rfl, fun h => by simpa [settle, setStatus] using h⟩
  | sweep olderThan =>
    refine ⟨rfl, fun h => ?_⟩
    have hle := List.length_filter_le
      (fun r : Request => !Decidable.decide (r.deadline < now - olderThan)) s.requests
    simp only [call, sweep]
    omega

theorem mem_sweep {s : Store} {now olderThan : ℤ} {r : Request} :
    r ∈ (s.sweep now olderThan).2.requests ↔
      r ∈ s.requests ∧ ¬ r.deadline < now - olderThan := by
  simp [sweep, List.mem_filter]

/-! ## Runs -/

theorem after_within {s : Store} (h : (s.requests.length : ℤ) ≤ max s.limit 0)
    (cs : List (ℤ × StoreCall)) :
    (s.after cs).limit = s.limit ∧ ((s.after cs).requests.length : ℤ) ≤ max s.limit 0 := by
  induction cs generalizing s with
  | nil => exact ⟨rfl, h⟩
  | cons c cs ih =>
    obtain ⟨now, c⟩ := c
    obtain ⟨hlimit, hlen⟩ := s.call_within now c
    rw [← hlimit] at hlen h ⊢
    exact ih (hlen h)

theorem Survives.head {s : Store} {id : Bytes} {now : ℤ} {c : StoreCall}
    {cs : List (ℤ × StoreCall)} (h : s.Survives id ((now, c) :: cs)) :
    (∃ r, (s.call now c).2.lookup id = some r) ∧ (s.call now c).2.Survives id cs := by
  have htail : (s.call now c).2.Survives id cs := by
    intro before hb
    exact h ((now, c) :: before) (List.cons_prefix_cons.2 ⟨rfl, hb⟩)
  exact ⟨Option.ne_none_iff_exists'.1 (htail [] List.nil_prefix), htail⟩

/-- What a run records for a request that is decided already: nothing. -/
theorem decisions_of_decided {s : Store} {id : Bytes} {r r' : Request}
    {cs : List (ℤ × StoreCall)} (hr : s.lookup id = some r) (hdec : r.status ≠ .pending)
    (hlive : s.Survives id cs) (hr' : (s.after cs).lookup id = some r') :
    s.decisions id cs = [] ∧ r' = r := by
  induction cs generalizing s with
  | nil => exact ⟨rfl, Option.some.inj (hr'.symm.trans hr)⟩
  | cons c cs ih =>
    obtain ⟨now, c⟩ := c
    obtain ⟨⟨r₁, hr₁⟩, htail⟩ := hlive.head
    rcases call_entry c hr hr₁ with ⟨hnone, rfl⟩ | ⟨approve, -, hpending, -⟩
    · obtain ⟨hrest, rfl⟩ := ih hr₁ htail hr'
      exact ⟨by simp [decisions, hnone, hrest], rfl⟩
    · exact absurd hpending hdec

/-- What a run records for a request: nothing, or one decision in time. -/
theorem decisions_of_survives {s : Store} {id : Bytes} {r r' : Request}
    {cs : List (ℤ × StoreCall)} (hr : s.lookup id = some r) (hlive : s.Survives id cs)
    (hr' : (s.after cs).lookup id = some r') :
    (s.decisions id cs = [] ∧ r' = r) ∨ ∃ now approve, s.decisions id cs = [(now, approve)] ∧
      r.status = .pending ∧ now ≤ r.deadline ∧ r' = Request.withDecision r approve := by
  induction cs generalizing s with
  | nil => exact .inl ⟨rfl, Option.some.inj (hr'.symm.trans hr)⟩
  | cons c cs ih =>
    obtain ⟨now, c⟩ := c
    obtain ⟨⟨r₁, hr₁⟩, htail⟩ := hlive.head
    rcases call_entry c hr hr₁ with ⟨hnone, rfl⟩ | ⟨approve, hsome, hpending, hle, rfl⟩
    · rcases ih hr₁ htail hr' with ⟨hrest, rfl⟩ | ⟨t, approve, hrest, hpending, hle, rfl⟩
      · exact .inl ⟨by simp [decisions, hnone, hrest], rfl⟩
      · exact .inr ⟨t, approve, by simp [decisions, hnone, hrest], hpending, hle, rfl⟩
    · -- from here on the request is decided
      have hdec : (Request.withDecision r approve).status ≠ .pending := by
        cases approve <;> simp [Request.withDecision]
      obtain ⟨hrest, rfl⟩ := decisions_of_decided hr₁ hdec htail hr'
      exact .inr ⟨now, approve, by simp [decisions, hsome, hrest], hpending, hle, rfl⟩

/-- **The invariant of the table.** After any run from an empty table with limit `n`: the table has
at most `n` requests; over any further run that a request survives it keeps its prompt, its creation
time and its deadline, and its status changes only by the one `Decide` that succeeds, from pending
and not after the deadline, and not at all once it is decided; a call that fails changes nothing;
and `Sweep` removes the requests whose deadline is before `now - olderThan`, none of which can be
decided then or later. -/
theorem store_invariant (n : ℤ) (past : List (ℤ × StoreCall)) :
    (((newWithLimit n).after past).requests.length : ℤ) ≤ max n 0 ∧
    (∀ id r r' cs, ((newWithLimit n).after past).lookup id = some r →
      ((newWithLimit n).after past).Survives id cs →
      (((newWithLimit n).after past).after cs).lookup id = some r' →
      r'.prompt = r.prompt ∧ r'.createdAt = r.createdAt ∧ r'.deadline = r.deadline ∧
      ((((newWithLimit n).after past).decisions id cs = [] ∧ r'.status = r.status) ∨
        ∃ now approve, ((newWithLimit n).after past).decisions id cs = [(now, approve)] ∧
          r.status = .pending ∧ now ≤ r.deadline ∧
          r'.status = if approve then .approved else .denied) ∧
      (r.status ≠ .pending → ((newWithLimit n).after past).decisions id cs = [] ∧ r' = r)) ∧
    (∀ now c, c.Fails (((newWithLimit n).after past).call now c).1 →
      (((newWithLimit n).after past).call now c).2 = (newWithLimit n).after past) ∧
    (∀ now olderThan, 0 ≤ olderThan →
      (∀ r, r ∈ (((newWithLimit n).after past).sweep now olderThan).2.requests ↔
        r ∈ ((newWithLimit n).after past).requests ∧ ¬ r.deadline < now - olderThan) ∧
      ∀ id r, ((newWithLimit n).after past).lookup id = some r →
        r ∉ (((newWithLimit n).after past).sweep now olderThan).2.requests →
        ∀ later approve, now ≤ later →
          ((newWithLimit n).after past).decide later id approve = .error (.hasExpired id)) := by
  have hwithin := after_within (s := newWithLimit n) (by simp [newWithLimit]) past
  generalize (newWithLimit n).after past = s at hwithin ⊢
  refine ⟨hwithin.2, ?_, fun now c => call_of_fails,
    fun now olderThan hold => ⟨fun r => mem_sweep, ?_⟩⟩
  · intro id r r' cs hr hlive hr'
    rcases decisions_of_survives hr hlive hr' with ⟨hnone, rfl⟩ | ⟨now, approve, hone, hp, hle, rfl⟩
    · exact ⟨rfl, rfl, rfl, .inl ⟨hnone, rfl⟩, fun _ => ⟨hnone, rfl⟩⟩
    · exact ⟨rfl, rfl, rfl, .inr ⟨now, approve, hone, hp, hle, rfl⟩, fun hdec => absurd hp hdec⟩
  · intro id r hr hgone later approve hlater
    have hdeadline : r.deadline < now - olderThan := by
      by_contra hnot
      exact hgone (mem_sweep.2 ⟨lookup_mem hr, hnot⟩)
    have hexpired : r.deadline < later := by omega
    simp [decide, hr, hexpired]

/-- A request that is approved at its deadline stays in the table, and the second `Decide` on it
fails. -/
theorem store_invariant_approved :
    ∃ now approve, ((newWithLimit 1).after [(0, .create [1] [] 5)]).decisions [1]
      [(5, .decide [1] true), (5, .decide [1] false)] = [(now, approve)] ∧ now ≤ 5 := by
  have hlive : ((newWithLimit 1).after [(0, .create [1] [] 5)]).Survives [1]
      [(5, .decide [1] true), (5, .decide [1] false)] := by
    intro before hb
    rw [← List.mem_inits] at hb
    revert before
    decide
  have h := (store_invariant 1 [(0, .create [1] [] 5)]).2.1 [1] ⟨[1], [], .pending, 0, 5⟩
    ⟨[1], [], .approved, 0, 5⟩ _ (by decide) hlive (by decide)
  rcases h.2.2.2.1 with ⟨-, hstatus⟩ | ⟨now, approve, hone, -, hle, -⟩
  · exact absurd hstatus (by decide)
  · exact ⟨now, approve, hone, hle⟩

/-- A request that is decided, swept and created anew. -/
example : ((newWithLimit 1).after [(0, .create [1] [] 5), (3, .decide [1] true),
    (4, .create [2] [] 5), (9, .sweep 2), (10, .create [1] [7] 5)]).requests =
    [⟨[1], [7], .pending, 10, 15⟩] := by decide

end Store

end SecretsBroker.Relay
