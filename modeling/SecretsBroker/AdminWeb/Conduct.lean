import SecretsBroker.Admin.Verdicts
import SecretsBroker.AdminWeb.Handlers

/-!
# What a request does, call by call

Whatever its calls are answered, a request makes each call for a reason that stands in its own
earlier calls: `protectPost` takes one token and calls the handler of its own action with what it
took, `commit` calls the editor with the change that it was handed, and `review` attaches the change
that it made of its form. `Allowed` says this for each call and `serve_conforms` that every request
keeps to it.
-/

namespace SecretsBroker.AdminWeb

open Admin Interaction

/-- A call that needs no reason: it takes no token, runs no handler, and changes nothing. -/
def Calm : Call → Prop
  | .take _ _ | .next _ _ _ | .attach _ _ | .policy (.mutate _ _) => False
  | _ => True

/-- The call of a handler. -/
def IsNext : Event Call.Answer → Prop
  | ⟨.next _ _ _, _⟩ => True
  | _ => False

variable [Platform]

/-- The form of a request for an action, which has passed the checks before the token. -/
def Posts (host : Bytes) (req : Request) (action : Action) (form : Form) : Prop :=
  ∃ r, req = .post action r ∧ checkPost host r = .ok form

omit [Platform] in
/-- A request has one form. -/
theorem Posts.unique {host : Bytes} {req : Request} {action action' : Action} {form form' : Form}
    (h : Posts host req action form) (h' : Posts host req action' form') : form = form' := by
  obtain ⟨r, rfl, hr⟩ := h
  obtain ⟨r', hreq, hr'⟩ := h'
  cases hreq
  exact Except.ok.inj (hr.symm.trans hr')

/-- The change is what `review` makes of the form and of the current project, which it has read. -/
def Reviewed (past : Trace Call.Answer) (kind : Kind) (form : Form) (change : PolicyChange) :
    Prop :=
  (kind = .create ∧ ∃ start name, reviewChange kind form none = .ok start ∧
    change = { start with projectName := name }) ∨
  (kind ≠ .create ∧ ∃ detail,
    ⟨.policy (.getProject (form.get fieldAlias)), .ok detail⟩ ∈ past ∧
      reviewChange kind form (some detail) = .ok change)

/-- The commit was handed a change and makes the mutation of it that fits the project it has
read. -/
def Committed (past : Trace Call.Answer) (form : Form) (entry : FormToken) (revision : Bytes)
    (m : Mutation) : Prop :=
  ∃ change current, entry.change = some change ∧ entry.revision = revision ∧
    confirmed form change = true ∧ m = change.mutation current ∧
    (change.kind = .metadata → ⟨.policy (.getProject change.projectAlias), .ok current⟩ ∈ past)

/-- What a request must have done before a call. -/
def Allowed (host : Bytes) (req : Request) (past : Trace Call.Answer) : Event Call.Answer → Prop
  | ⟨.take token action, _⟩ =>
    past = [] ∧ ∃ form, Posts host req action form ∧ token = form.get fieldCSRF
  | ⟨.next token action entry, _⟩ =>
    ⟨.take token action, some entry⟩ ∈ past ∧ (∀ ev ∈ past, ¬ IsNext ev) ∧
      ∃ form, Posts host req action form ∧ matchesTarget form entry.target = true
  | ⟨.policy (.mutate revision m), _⟩ =>
    ∃ token entry form, ⟨.next token .commit entry, ()⟩ ∈ past ∧ Posts host req .commit form ∧
      Committed past form entry revision m
  | ⟨.attach token change, _⟩ =>
    ∃ kind first entry form, ⟨.next first (.review kind) entry, ()⟩ ∈ past ∧
      Posts host req (.review kind) form ∧
      ⟨.issue .commit entry.revision change.projectAlias, .ok token⟩ ∈ past ∧
      Reviewed past kind form change
  | _ => True

theorem allowed_of_calm {host : Bytes} {req : Request} {past : Trace Call.Answer} {c : Call}
    {r : c.Answer} (h : Calm c) : Allowed host req past ⟨c, r⟩ := by
  cases c with
  | policy c =>
    cases c with
    | mutate revision m => exact h.elim
    | _ => trivial
  | take => exact h.elim
  | next => exact h.elim
  | attach => exact h.elim
  | _ => trivial

/-! ## Pages -/

omit [Platform] in
theorem calm_onPolicy {α : Type} {p : PolicyProgram α}
    (h : Only (fun c => Calm (.policy c)) p) : Only Calm (onPolicy p) := by
  induction p with
  | ret a => trivial
  | call c k ih => exact only_ask_bind h.1 fun r => ih r (h.2 r)

omit [Platform] in
theorem calm_view {α : Type} {load : PolicyProgram (Except Bytes α)}
    (h : Only (fun c => Calm (.policy c)) load) : Only (fun c => Calm (.policy c)) (view load) := by
  refine only_ask_bind trivial fun before => ?_
  rcases before with err | before
  · trivial
  refine only_bind h fun loaded => ?_
  rcases loaded with err | loaded
  · trivial
  refine only_ask_bind trivial fun after => ?_
  rcases after with err | after <;> trivial

omit [Platform] in
theorem calm_renderOverview (status : ℕ) (message : Bytes) :
    Only Calm (renderOverview status message) := by
  refine only_bind (calm_onPolicy (calm_view ⟨trivial, fun _ => trivial⟩)) fun read => ?_
  rcases read with err | ⟨_, revision⟩
  · trivial
  refine only_ask_bind trivial fun issued => ?_
  rcases issued with err | token
  · trivial
  refine only_ask_bind trivial fun available => ?_
  cases available with
  | false => trivial
  | true =>
    refine only_ask_bind trivial fun issued => ?_
    rcases issued with err | token <;> trivial

omit [Platform] in
theorem calm_issueAll (revision target : Bytes) (actions : List Action) :
    Only Calm (issueAll revision target actions) := by
  induction actions with
  | nil => trivial
  | cons action actions ih =>
    refine only_ask_bind trivial fun issued => ?_
    rcases issued with err | token
    · trivial
    · exact ih

omit [Platform] in
theorem calm_renderProject (order : List Kind) (status : ℕ) (name message : Bytes) :
    Only Calm (renderProject order status name message) := by
  refine only_bind (calm_onPolicy (calm_view ⟨trivial, fun _ => trivial⟩)) fun read => ?_
  rcases read with err | ⟨_, revision⟩
  · trivial
  refine only_bind (calm_issueAll _ _ _) fun issued => ?_
  cases issued <;> trivial

omit [Platform] in
theorem calm_projectPage (order : List Kind) (index : Bytes) :
    Only Calm (projectPage order index) := by
  refine only_ask_bind trivial fun projects => ?_
  rcases projects with err | projects
  · trivial
  dsimp only
  split
  · trivial
  · exact calm_renderProject _ _ _ _

omit [Platform] in
theorem calm_projectIndex (name : Bytes) : Only Calm (projectIndex name) := by
  refine only_ask_bind trivial fun projects => ?_
  rcases projects with err | projects <;> trivial

omit [Platform] in
theorem calm_discover : Only Calm discover := by
  refine only_ask_bind trivial fun completed => ?_
  cases completed <;> exact calm_renderOverview _ _

omit [Platform] in
theorem calm_checkProject (action : Action) (order : List Kind) (form : Form) :
    Only Calm (checkProject action order form) := by
  refine only_bind (calm_projectIndex _) fun found => ?_
  cases found with
  | none => trivial
  | some _ => exact only_ask_bind trivial fun completed => calm_renderProject _ _ _ _

/-! ## Handlers -/

section Handlers

variable {host : Bytes} {req : Request} {past : Trace Call.Answer}

/-- The program makes only calls that `Allowed` allows, after the calls in `past`. -/
def Keeps (host : Bytes) (req : Request) (past : Trace Call.Answer) {α : Type} (p : Program α) :
    Prop :=
  Conforms (Recorded (Allowed host req)) p past fun _ _ => True

theorem keeps_of_calm {α : Type} {p : Program α} (h : Only Calm p) : Keeps host req past p :=
  conforms_mono (h.recorded fun _ _ _ => allowed_of_calm) fun _ _ _ => trivial

theorem keeps_ask_bind {α : Type} {c : Call} {f : c.Answer → Program α}
    (ha : ∀ r, Allowed host req past ⟨c, r⟩)
    (h : ∀ r, Keeps host req (past ++ [⟨c, r⟩]) (f r)) :
    Keeps host req past (Prog.ask c >>= f) := recorded_ask_bind ha h

theorem Reviewed.mono {past' : Trace Call.Answer} {kind : Kind} {form : Form}
    {change : PolicyChange} (h : Reviewed past kind form change) (hsub : past ⊆ past') :
    Reviewed past' kind form change := by
  rcases h with h | ⟨hk, detail, hread, hc⟩
  · exact .inl h
  · exact .inr ⟨hk, detail, hsub hread, hc⟩

theorem Reviewed.alias {kind : Kind} {form : Form} {change : PolicyChange}
    (h : Reviewed past kind form change) : change.projectAlias = form.get fieldAlias := by
  rcases h with ⟨rfl, start, name, hc, rfl⟩ | ⟨hk, detail, -, hc⟩
  · exact (reviewChange_fields hc).2.1
  · exact (reviewChange_fields hc).2.1

/-- The project that a reviewed change is about. -/
theorem Reviewed.target {kind : Kind} {form : Form} {change : PolicyChange}
    (h : Reviewed past kind form change) (current : ProjectDetail) :
    (change.mutation current).target = change.projectAlias := by
  rcases h with ⟨rfl, start, name, hc, rfl⟩ | ⟨hk, detail, -, hc⟩
  · obtain ⟨hkind, halias, hinput⟩ := reviewChange_fields hc
    simp only [PolicyChange.mutation, hkind, Mutation.target, hinput (.inl rfl), halias, inputOf]
  · obtain ⟨hkind, -, -⟩ := reviewChange_fields hc
    rw [PolicyChange.mutation, hkind]
    cases kind <;> first | exact absurd rfl hk | rfl

theorem keeps_offerCommit {kind : Kind} {first : Bytes} {entry : FormToken} {form : Form}
    {change : PolicyChange} (hnext : ⟨.next first (.review kind) entry, ()⟩ ∈ past)
    (hp : Posts host req (.review kind) form) (hr : Reviewed past kind form change)
    (current : Option ProjectDetail) :
    Keeps host req past (offerCommit entry.revision current change) := by
  refine keeps_ask_bind (fun _ => trivial) fun latest => ?_
  rcases latest with err | latest
  · trivial
  dsimp only
  by_cases hl : latest ≠ entry.revision
  · rw [if_pos hl]
    trivial
  rw [if_neg hl]
  refine keeps_ask_bind (fun _ => trivial) fun issued => ?_
  rcases issued with err | token
  · trivial
  refine keeps_ask_bind (fun _ => ?_) fun _ => trivial
  exact ⟨kind, first, entry, form, by simp [hnext], hp, by simp, hr.mono (by simp)⟩

/-- What is known once the current project of a form is read. -/
theorem readCurrent_conforms (kind : Kind) (name : Bytes) :
    Conforms (Recorded (Allowed host req)) (onPolicy (readCurrent kind name)) past fun read past' =>
      past ⊆ past' ∧ ∀ current, read = .ok current → (kind = .create ∧ current = none) ∨
        (kind ≠ .create ∧ ∃ detail, current = some detail ∧
          ⟨.policy (.getProject name), .ok detail⟩ ∈ past') := by
  cases kind with
  | create =>
    refine conforms_pure ⟨List.Subset.refl _, fun current h => ?_⟩
    exact .inl ⟨rfl, (Except.ok.inj h).symm⟩
  | _ =>
    refine recorded_ask_bind (fun _ => trivial) fun read => ?_
    rcases read with err | detail
    · exact conforms_pure ⟨by simp, fun current h => by simp at h⟩
    · refine conforms_pure ⟨by simp, fun current h => .inr ⟨by simp, detail, ?_, by simp⟩⟩
      exact (Except.ok.inj h).symm

theorem keeps_review {kind : Kind} {first : Bytes} {entry : FormToken} {form : Form}
    (hnext : ⟨.next first (.review kind) entry, ()⟩ ∈ past)
    (hp : Posts host req (.review kind) form) :
    Keeps host req past (review kind form entry.revision) := by
  refine conforms_bind (readCurrent_conforms kind (form.get fieldAlias)) fun read past' hread => ?_
  obtain ⟨hsub, hcur⟩ := hread
  rcases read with err | current
  · trivial
  dsimp only
  cases hc : reviewChange kind form current with
  | error message => trivial
  | ok change =>
    dsimp only
    rcases hcur current rfl with ⟨rfl, rfl⟩ | ⟨hk, detail, rfl, hmem⟩
    · -- `create` reads the list of projects and takes the name of an available one
      rw [if_pos rfl]
      refine keeps_ask_bind (fun _ => trivial) fun projects => ?_
      rcases projects with err | projects
      · trivial
      dsimp only
      split
      · trivial
      refine keeps_ask_bind (fun _ => trivial) fun name => ?_
      split
      · trivial
      · have hn := List.mem_append_left [⟨.availableName change.input.bwsProjectID, name⟩]
          (List.mem_append_left [⟨.policy .listProjects, .ok projects⟩] (hsub hnext))
        exact keeps_offerCommit hn hp (.inl ⟨rfl, change, name, hc, rfl⟩) none
    · rw [if_neg hk]
      exact keeps_offerCommit (hsub hnext) hp (.inr ⟨hk, detail, hmem, hc⟩) _

theorem keeps_applyChange {token : Bytes} {entry : FormToken} {form : Form} {change : PolicyChange}
    (hnext : ⟨.next token .commit entry, ()⟩ ∈ past) (hp : Posts host req .commit form)
    (hc : entry.change = some change) (hconf : confirmed form change = true) :
    Keeps host req past (onPolicy (applyChange entry.revision change)) := by
  have edit : ∀ (past' : Trace Call.Answer) (current : ProjectDetail), past ⊆ past' →
      (change.kind = .metadata →
        ⟨.policy (.getProject change.projectAlias), .ok current⟩ ∈ past') →
      ∀ r, Allowed host req past'
        ⟨.policy (.mutate entry.revision (change.mutation current)), r⟩ :=
    fun past' current hsub hread r =>
      ⟨token, entry, form, hsub hnext, hp, change, current, hc, rfl, hconf, rfl, hread⟩
  by_cases hkind : change.kind = .metadata
  · rw [applyChange, readForCommit, if_pos hkind]
    refine keeps_ask_bind (fun _ => trivial) fun read => ?_
    rcases read with err | current
    · trivial
    · have hread := List.mem_append_right past (List.mem_singleton_self
        (⟨.policy (.getProject change.projectAlias), .ok current⟩ : Event Call.Answer))
      refine keeps_ask_bind (edit _ current (List.subset_append_left _ _) fun _ => hread) fun r =>
        ?_
      obtain ⟨changed, _ | err⟩ := r <;> trivial
  · rw [applyChange, readForCommit, if_neg hkind]
    refine keeps_ask_bind (edit past .zero (List.Subset.refl _) fun h => absurd h hkind) fun r => ?_
    obtain ⟨changed, _ | err⟩ := r <;> trivial

theorem keeps_commit {token : Bytes} {entry : FormToken} {form : Form}
    (hnext : ⟨.next token .commit entry, ()⟩ ∈ past) (hp : Posts host req .commit form)
    (order : List Kind) : Keeps host req past (commit order form entry.revision entry.change) := by
  cases hc : entry.change with
  | none => trivial
  | some change =>
    by_cases hconf : confirmed form change = true
    swap
    · simp only [commit, hconf, Bool.not_false, if_true]
      trivial
    simp only [commit, hconf, Bool.not_true, Bool.false_eq_true, if_false]
    refine conforms_bind (keeps_applyChange hnext hp hc hconf) fun applied past' _ => ?_
    rcases applied with response | changed
    · trivial
    · refine keeps_of_calm (only_bind (calm_projectIndex _) fun found => ?_)
      cases found with
      | none => trivial
      | some _ => exact calm_renderProject _ _ _ _

theorem keeps_handler {action : Action} {token : Bytes} {entry : FormToken} {form : Form}
    (hnext : ⟨.next token action entry, ()⟩ ∈ past) (hp : Posts host req action form)
    (order : List Kind) :
    Keeps host req past (handler action order form entry.revision entry.change) := by
  cases action with
  | review kind => exact keeps_review hnext hp
  | commit => exact keeps_commit hnext hp order
  | discover => exact keeps_of_calm calm_discover
  | path => exact keeps_of_calm (calm_checkProject _ _ _)
  | access => exact keeps_of_calm (calm_checkProject _ _ _)

end Handlers

/-! ## Requests -/

omit [Platform] in
theorem calm_checkRevision (revision : Bytes) :
    Only (fun c => Calm (.policy c)) (checkRevision revision) := by
  rw [checkRevision]
  split
  · trivial
  refine only_ask_bind trivial fun current => ?_
  rcases current with err | current
  · trivial
  · change Only _ (if current ≠ revision then _ else _)
    split <;> trivial

theorem keeps_protectPost (host : Bytes) (action : Action) (r : Post) :
    Keeps host (.post action r) [] (protectPost host action r (handler action r.order)) := by
  rw [protectPost]
  cases hform : checkPost host r with
  | error response => trivial
  | ok form =>
    have hp : Posts host (.post action r) action form := ⟨r, rfl, hform⟩
    refine keeps_ask_bind (fun _ => ⟨rfl, form, hp, rfl⟩) fun taken => ?_
    cases taken with
    | none => trivial
    | some entry =>
      by_cases ht : matchesTarget form entry.target = true
      swap
      · simp only [ht, Bool.not_false, if_true]
        trivial
      simp only [ht, Bool.not_true, Bool.false_eq_true, if_false]
      refine conforms_bind ((calm_onPolicy (calm_checkRevision entry.revision)).recorded
        fun _ _ _ => allowed_of_calm) ?_
      rintro stop _ ⟨reads, rfl, hreads⟩
      cases stop with
      | some response => trivial
      | none =>
        refine keeps_ask_bind (fun _ => ⟨by simp, ?_, form, hp, ht⟩) fun _ =>
          keeps_handler (List.mem_append_right _ (List.mem_singleton_self _)) hp r.order
        intro ev hev hn
        rcases List.mem_append.1 hev with hev | hev
        · obtain rfl : ev = ⟨.take (form.get fieldCSRF) action, some entry⟩ := by simpa using hev
          exact hn
        · obtain ⟨c, answer⟩ := ev
          have hcalm : Calm c := hreads _ hev
          cases c <;> first | exact hcalm | exact hn

/-- **Every request makes only calls that its earlier calls allow**, whatever they are answered. -/
theorem serve_conforms (host : Bytes) (req : Request) : Keeps host req [] (serve host req) := by
  cases req with
  | home => exact keeps_of_calm (calm_renderOverview _ _)
  | projectPage index order perm => exact keeps_of_calm (calm_projectPage _ _)
  | post action r => exact keeps_protectPost host action r

theorem allowed_next {host : Bytes} {req : Request} {past : Trace Call.Answer}
    {ev : Event Call.Answer} (h : Allowed host req past ev) (hn : IsNext ev) :
    ∀ ev ∈ past, ¬ IsNext ev := by
  obtain ⟨c, r⟩ := ev
  cases c <;> first | exact hn.elim | exact h.2.1

/-- A request calls one handler. -/
theorem next_unique {host : Bytes} {req : Request} {tr : Trace Call.Answer} {response : Response}
    (h : Runs (serve host req) tr response) {ev ev' : Event Call.Answer} (hm : ev ∈ tr)
    (hm' : ev' ∈ tr) (hn : IsNext ev) (hn' : IsNext ev') : ev = ev' := by
  have first : ∀ {x y : Trace Call.Answer} {e : Event Call.Answer}, tr = x ++ e :: y → IsNext e →
      ∀ e' ∈ x, ¬ IsNext e' := fun htr he =>
    allowed_next (by simpa using h.allowed (serve_conforms host req) htr) he
  obtain ⟨x, y, htr⟩ := List.append_of_mem hm
  obtain ⟨x', y', htr'⟩ := List.append_of_mem hm'
  rcases List.append_eq_append_iff.1 (htr.symm.trans htr') with ⟨z, hx, hz⟩ | ⟨z, hx, hz⟩
  · cases z with
    | nil => exact (List.cons.inj hz).1
    | cons e z =>
      obtain ⟨rfl, -⟩ := List.cons.inj hz
      exact absurd hn (first htr' hn' ev (by simp [hx]))
  · cases z with
    | nil => exact (List.cons.inj hz).1.symm
    | cons e z =>
      obtain ⟨rfl, -⟩ := List.cons.inj hz
      exact absurd hn' (first htr hn ev' (by simp [hx]))

end SecretsBroker.AdminWeb
