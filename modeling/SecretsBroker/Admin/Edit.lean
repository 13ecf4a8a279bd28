import SecretsBroker.Admin.Layout
import SecretsBroker.Broker.Run
import SecretsBroker.Foundations.Digest

/-!
# The edits of a policy as functions of its text

What each mutator of `internal/admin/policy.go` does between reading the policy and writing it: from
the bytes and the configuration they parse to, the bytes to write. Every edit ends with the same
guard (`validateUpdate`): the new text must parse to the configuration that was meant, up to
`reflect.DeepEqual`. So the effect of an edit is that configuration, whatever the byte-level
functions did (`Mutation.edit_ok`, `removeProject_ok`, `restoreProject_ok`).
-/

namespace SecretsBroker.Admin

open Fallible

variable [Platform]

def ModeAutomatic : Bytes := str "automatic"
def ModeConfirm : Bytes := str "confirm"

structure ProjectInput where
  projectAlias : Bytes
  bwsProjectID : Bytes
  tokenEntry : Bytes
  workingDir : Bytes
  deriving DecidableEq

structure ProjectMetadataUpdate where
  bwsProjectID : Option Bytes
  tokenEntry : Option Bytes
  workingDir : Option Bytes

/-- The mutators that return whether they changed the policy. -/
inductive Mutation
  | createProject (input : ProjectInput)
  | updateProjectMetadata (name : Bytes) (input : ProjectMetadataUpdate)
  | setApproval (name mode : Bytes)
  | addAllowlist (name : Bytes) (argv : List Bytes)
  | removeAllowlist (name : Bytes) (argv : List Bytes)

def errBWSProjectID : Bytes := str "bws project ID is required"
def errTokenEntry : Bytes := str "token entry is required"
def errWorkingDir : Bytes := str "working directory is required"
def errWorkingDirAbs : Bytes := str "working directory must be an absolute path"
def errEmptyArgv : Bytes := str "allowlist argv must not be empty"

def validateProjectInput (input : ProjectInput) : Except Bytes Unit := do
  if input.projectAlias = [] then throw (str "project alias is required")
  if input.bwsProjectID = [] then throw errBWSProjectID
  if input.tokenEntry = [] then throw errTokenEntry
  if input.workingDir = [] then throw errWorkingDir
  if !Path.isAbs input.workingDir then throw errWorkingDirAbs

/-- The checks of `UpdateProjectMetadata` before the policy is read. -/
def validateMetadataUpdate (input : ProjectMetadataUpdate) : Except Bytes Unit := do
  if input.bwsProjectID = none ∧ input.tokenEntry = none ∧ input.workingDir = none then
    throw (str "at least one project metadata field is required")
  if input.bwsProjectID = some [] then throw errBWSProjectID
  if input.tokenEntry = some [] then throw errTokenEntry
  match input.workingDir with
  | none => pure ()
  | some dir =>
    if dir = [] then throw errWorkingDir
    if !Path.isAbs dir then throw errWorkingDirAbs

def storedApproval (mode : Bytes) : Except Bytes Bytes :=
  if mode = ModeAutomatic then .ok Config.ApprovalNever
  else if mode = ModeConfirm then .ok Config.ApprovalAllowlistedPrompt
  else .error (str "unsupported approval mode " ++ quote mode ++ str " (use " ++
    quote ModeAutomatic ++ str " or " ++ quote ModeConfirm ++ str ")")

def findProject (cfg : Config) (name : Bytes) : Except Bytes ℕ :=
  match cfg.projects.findIdx? fun p => p.projectAlias == name with
  | some i => .ok i
  | none => .error (str "unknown project " ++ quote name)

/-- What every edit checks of the text it produced: it parses, for the worker too, to what was
expected. `message` is the text of the last check. -/
def validateUpdate (updated : Bytes) (expected : Config) (message : Bytes) : Except Bytes Unit :=
  match Config.parse updated with
  | .error e => .error (str "validating updated policy: " ++ e)
  | .ok cfg =>
    match cfg.validateWorker with
    | .error e => .error (str "validating updated worker policy: " ++ e)
    | .ok () => if expected = cfg then .ok () else .error message

/-! ## The edits -/

/-- The project that `CreateProject` adds. -/
def ProjectInput.project (input : ProjectInput) : Project :=
  ⟨input.projectAlias, input.bwsProjectID, input.tokenEntry, input.workingDir,
    Config.ApprovalAllowlistedPrompt, none⟩

def createProject (input : ProjectInput) (data : Bytes) (cfg : Config) :
    Except Bytes (Option Bytes) :=
  if cfg.projects.any fun p => p.projectAlias == input.projectAlias then
    .error (str "project " ++ quote input.projectAlias ++ str " already exists")
  else do
    let updated := appendProject data input.project
    validateUpdate updated { cfg with projects := cfg.projects ++ [input.project] }
      (str "updated policy changed fields outside the new project")
    pure (some updated)

/-- A row of the table of `UpdateProjectMetadata`. -/
structure MetadataField where
  name : Bytes
  current : Bytes
  value : Option Bytes
  apply : Project → Bytes → Project

def metadataFields (project : Project) (input : ProjectMetadataUpdate) : List MetadataField :=
  [⟨str "bws_project_id", project.bwsProjectID, input.bwsProjectID,
      fun p v => { p with bwsProjectID := v }⟩,
    ⟨str "token_entry", project.tokenEntry, input.tokenEntry,
      fun p v => { p with tokenEntry := v }⟩,
    ⟨str "working_dir", project.workingDir, input.workingDir,
      fun p v => { p with workingDir := v }⟩]

/-- The value that a row changes its field to. -/
def MetadataField.change (field : MetadataField) : Option Bytes :=
  match field.value with
  | none => none
  | some value => if value = field.current then none else some value

/-- The loop over the table: the text, the project and whether a field was changed. -/
def applyFields (projectCount projectIndex : ℕ) :
    List MetadataField → Bytes × Project × Bool → Except Bytes (Bytes × Project × Bool)
  | [], state => .ok state
  | field :: fields, (updated, project, changed) =>
    match field.change with
    | none => applyFields projectCount projectIndex fields (updated, project, changed)
    | some value =>
      match replaceProjectField updated projectCount projectIndex field.name value with
      | .error e => .error e
      | .ok updated =>
        applyFields projectCount projectIndex fields (updated, field.apply project value, true)

/-- The configuration with the project at an index replaced. -/
def withProject (cfg : Config) (projectIndex : ℕ) (project : Project) : Config :=
  { cfg with projects := cfg.projects.set projectIndex project }

/-- An edit of one project: from the text, the configuration, the index of the project and the
project, the new text with the project as it is meant to be, or nothing if there is nothing to
change. -/
abbrev ProjectEdit := Bytes → Config → ℕ → Project → Except Bytes (Option (Bytes × Project))

/-- The edits of one project: find it, edit the text and check what it parses to. -/
def editProject (name message : Bytes) (edit : ProjectEdit) (data : Bytes) (cfg : Config) :
    Except Bytes (Option Bytes) := do
  let projectIndex ← findProject cfg name
  match cfg.projects[projectIndex]? with
  | none => pure none
  | some project =>
    match ← edit data cfg projectIndex project with
    | none => pure none
    | some (updated, expected) =>
      validateUpdate updated (withProject cfg projectIndex expected) message
      pure (some updated)

def metadataEdit (input : ProjectMetadataUpdate) : ProjectEdit :=
  fun data cfg projectIndex project =>
    match applyFields cfg.projects.length projectIndex (metadataFields project input)
      (data, project, false) with
    | .error e => .error e
    | .ok (updated, expected, changed) => .ok (if changed then some (updated, expected) else none)

def approvalEdit (approval : Bytes) : ProjectEdit :=
  fun data cfg projectIndex project =>
    if project.approval = approval then .ok none
    else (replaceApproval data cfg.projects.length projectIndex approval).map fun updated =>
      some (updated, { project with approval := approval })

def addEdit (argv : List Bytes) : ProjectEdit :=
  fun data cfg projectIndex project =>
    let allow := project.allow.elems
    if allow.any fun entry => entry.argv == argv then .ok none
    else (insertAllowEntry data cfg.projects.length projectIndex allow.length argv).map
      fun updated =>
      some (updated, { project with allow := Slice.ofAppend (allow ++ [⟨argv⟩]) })

/-- The indices of the entries that equal `argv`. -/
def removedIndices (allow : List AllowEntry) (argv : List Bytes) : List ℕ :=
  (List.range allow.length).filter fun i => (allow[i]?).map AllowEntry.argv == some argv

def removeEdit (argv : List Bytes) : ProjectEdit :=
  fun data cfg projectIndex project =>
    let allow := project.allow.elems
    if removedIndices allow argv = [] then .ok none
    else (removeAllowEntries data cfg.projects.length projectIndex allow.length
      (removedIndices allow argv)).map fun updated =>
        some (updated,
          { project with allow := Slice.ofAppend (allow.filter fun entry => entry.argv != argv) })

def updateProjectMetadata (name : Bytes) (input : ProjectMetadataUpdate) :
    Bytes → Config → Except Bytes (Option Bytes) :=
  editProject name (str "updated policy changed fields outside the selected project metadata")
    (metadataEdit input)

def setApproval (name approval : Bytes) : Bytes → Config → Except Bytes (Option Bytes) :=
  editProject name (str "updated policy changed fields outside the selected approval mode")
    (approvalEdit approval)

def errAllowlistOutside : Bytes :=
  str "updated policy changed fields outside the selected project allowlist"

def addAllowlist (name : Bytes) (argv : List Bytes) :
    Bytes → Config → Except Bytes (Option Bytes) :=
  editProject name errAllowlistOutside (addEdit argv)

def removeAllowlist (name : Bytes) (argv : List Bytes) :
    Bytes → Config → Except Bytes (Option Bytes) :=
  editProject name errAllowlistOutside (removeEdit argv)

/-- What a mutator checks before it reads the policy. -/
def Mutation.check : Mutation → Except Bytes Unit
  | .createProject input => validateProjectInput input
  | .updateProjectMetadata _ input => validateMetadataUpdate input
  | .setApproval _ mode => (storedApproval mode).map fun _ => ()
  | .addAllowlist _ argv | .removeAllowlist _ argv =>
    if argv = [] then .error errEmptyArgv else .ok ()

/-- What a mutator makes of the policy it has read. -/
def Mutation.edit : Mutation → Bytes → Config → Except Bytes (Option Bytes)
  | .createProject input, data, cfg => Admin.createProject input data cfg
  | .updateProjectMetadata name input, data, cfg => Admin.updateProjectMetadata name input data cfg
  | .setApproval name mode, data, cfg => do
    let approval ← storedApproval mode
    Admin.setApproval name approval data cfg
  | .addAllowlist name argv, data, cfg => Admin.addAllowlist name argv data cfg
  | .removeAllowlist name argv, data, cfg => Admin.removeAllowlist name argv data cfg

/-- The configuration without the project at an index. -/
def withoutProject (cfg : Config) (projectIndex : ℕ) : Config :=
  { cfg with projects := cfg.projects.eraseIdx projectIndex }

/-- `RemoveProject` between reading the policy and publishing the recovery artifact. -/
def removeProject (name data : Bytes) (cfg : Config) : Except Bytes Bytes := do
  let projectIndex ← findProject cfg name
  if cfg.projects.length = 1 then .error (str "cannot remove the last configured project")
  else
    let updated ← removeProjectSpan data cfg.projects.length projectIndex
    validateUpdate updated (withoutProject cfg projectIndex)
      (str "updated policy changed fields outside the selected project")
    pure updated

structure RecoveryArtifact where
  version : ℤ
  recoveryID : Bytes
  /-- Nanoseconds since 1970; the zero time of the source is `zeroTime`. -/
  createdAt : ℤ
  project : Bytes
  beforeSHA256 : Bytes
  afterSHA256 : Bytes
  policy : Bytes
  deriving DecidableEq

/-- `RestoreProject` between reading the policy and writing it: the stored policy, if taking the
project out of it gives the current one. -/
def restoreProject (artifact : RecoveryArtifact) (currentData : Bytes) (currentConfig : Config) :
    Except Bytes Bytes :=
  if hexDigest currentData ≠ artifact.afterSHA256 then
    .error (str "policy changed since removal; automatic restore is not allowed")
  else
    match Config.parse artifact.policy with
    | .error e => .error (str "validating stored policy: " ++ e)
    | .ok stored =>
      match stored.validateWorker with
      | .error e => .error (str "validating stored worker policy: " ++ e)
      | .ok () =>
        match findProject stored artifact.project with
        | .error _ => .error (str "recovery artifact does not contain the confirmed project")
        | .ok projectIndex =>
          if withoutProject stored projectIndex ≠ currentConfig then
            .error (str "recovery artifact does not differ by exactly the confirmed project")
          else
            match removeProjectSpan artifact.policy stored.projects.length projectIndex with
            | .error e => .error (str "validating stored policy layout: " ++ e)
            | .ok removed =>
              if removed ≠ currentData then
                .error (str "recovery artifact does not reproduce the current policy")
              else .ok artifact.policy

/-! ## What the edits establish -/

theorem validateUpdate_ok {updated : Bytes} {expected : Config} {message : Bytes}
    (h : validateUpdate updated expected message = .ok ()) :
    Config.parse updated = .ok expected ∧ expected.validateWorker = .ok () := by
  unfold validateUpdate at h
  split at h
  · simp at h
  · next cfg hcfg =>
    split at h
    · simp at h
    · next hw =>
      split_ifs at h with he
      subst he
      exact ⟨hcfg, hw⟩

/-- The selected project is the first one with its alias. -/
theorem findProject_ok {cfg : Config} {name : Bytes} {i : ℕ} (h : findProject cfg name = .ok i) :
    ∃ before p after, cfg.projects = before ++ p :: after ∧ before.length = i ∧
      p.projectAlias = name ∧ ∀ q ∈ before, q.projectAlias ≠ name := by
  unfold findProject at h
  split at h
  · next j hj =>
    obtain rfl := Except.ok.inj h
    obtain ⟨hlt, hp, hbefore⟩ := List.findIdx?_eq_some_iff_getElem.1 hj
    refine ⟨cfg.projects.take j, cfg.projects[j], cfg.projects.drop (j + 1), ?_, ?_, ?_, ?_⟩
    · rw [List.getElem_cons_drop, List.take_append_drop]
    · simp [Nat.le_of_lt hlt]
    · simpa using hp
    · intro q hq
      obtain ⟨k, hk, rfl⟩ := List.mem_take_iff_getElem.1 hq
      have hkj : k < j := Nat.lt_of_lt_of_le hk (Nat.min_le_left _ _)
      simpa using hbefore k hkj
  · simp at h

theorem createProject_ok {input : ProjectInput} {data updated : Bytes} {cfg : Config}
    (h : createProject input data cfg = .ok (some updated)) :
    (∀ p ∈ cfg.projects, p.projectAlias ≠ input.projectAlias) ∧
      updated = appendProject data input.project ∧
      Config.parse updated = .ok { cfg with projects := cfg.projects ++ [input.project] } ∧
      Config.validateWorker { cfg with projects := cfg.projects ++ [input.project] } = .ok () := by
  unfold createProject at h
  split_ifs at h with hany
  obtain ⟨u, hv, h⟩ := bind_eq_ok.1 h
  obtain rfl : appendProject data input.project = updated := by simpa [pure, Except.pure] using h
  refine ⟨fun p hp he => hany ?_, rfl, validateUpdate_ok hv⟩
  exact List.any_eq_true.2 ⟨p, hp, by simpa using he⟩

/-- An edit of one project finds it; then there is nothing to change, or the new text parses to the
configuration with the edited project. -/
theorem editProject_cases {name message data : Bytes} {cfg : Config} {edit : ProjectEdit}
    {r : Option Bytes} (h : editProject name message edit data cfg = .ok r) :
    ∃ before p after, cfg.projects = before ++ p :: after ∧ p.projectAlias = name ∧
      (∀ q ∈ before, q.projectAlias ≠ name) ∧
      ((r = none ∧ edit data cfg before.length p = .ok none) ∨
        ∃ updated p', r = some updated ∧ edit data cfg before.length p = .ok (some (updated, p')) ∧
          Config.parse updated = .ok { cfg with projects := before ++ p' :: after } ∧
          Config.validateWorker { cfg with projects := before ++ p' :: after } = .ok ()) := by
  obtain ⟨i, hi, h⟩ := bind_eq_ok.1 h
  obtain ⟨before, p, after, hps, rfl, hname, hbefore⟩ := findProject_ok hi
  have hp : cfg.projects[before.length]? = some p := by simp [hps]
  simp only [hp] at h
  obtain ⟨x, hx, h⟩ := bind_eq_ok.1 h
  refine ⟨before, p, after, hps, hname, hbefore, ?_⟩
  cases x with
  | none => exact .inl ⟨(Except.ok.inj h).symm, hx⟩
  | some x =>
    obtain ⟨u, hv, h⟩ := bind_eq_ok.1 h
    have hcfg : withProject cfg before.length x.2 =
        { cfg with projects := before ++ x.2 :: after } := by
      simp [withProject, hps]
    exact .inr ⟨x.1, x.2, (Except.ok.inj h).symm, hx, hcfg ▸ validateUpdate_ok hv⟩

/-- **An edit of one project changes that project only**, to what the edit says. -/
theorem editProject_ok {name message data updated : Bytes} {cfg : Config}
    {edit : ProjectEdit} (h : editProject name message edit data cfg = .ok (some updated)) :
    ∃ before p after p', cfg.projects = before ++ p :: after ∧ p.projectAlias = name ∧
      (∀ q ∈ before, q.projectAlias ≠ name) ∧
      edit data cfg before.length p = .ok (some (updated, p')) ∧
      Config.parse updated = .ok { cfg with projects := before ++ p' :: after } ∧
      Config.validateWorker { cfg with projects := before ++ p' :: after } = .ok () := by
  obtain ⟨before, p, after, hps, hname, hbefore, ⟨hr, -⟩ | ⟨u, p', hr, hrest⟩⟩ :=
    editProject_cases h
  · simp at hr
  · obtain rfl := Option.some.inj hr
    exact ⟨before, p, after, p', hps, hname, hbefore, hrest⟩

section ProjectEdits

variable {cfg : Config} {i : ℕ} {data updated : Bytes} {p p' : Project}

omit [Platform] in
/-- The loop over the table applies the changes one after another. -/
theorem applyFields_ok {count : ℕ} {fields : List MetadataField} {c c' : Bool}
    (h : applyFields count i fields (data, p, c) = .ok (updated, p', c')) :
    p' = fields.foldl (fun q field => (field.change.map (field.apply q)).getD q) p ∧
      c' = (c || fields.any fun field => field.change.isSome) := by
  induction fields generalizing data p c with
  | nil =>
    obtain ⟨-, rfl, rfl⟩ : data = updated ∧ p = p' ∧ c = c' := by simpa [applyFields] using h
    simp
  | cons field fields ih =>
    rw [applyFields] at h
    cases hc : field.change with
    | none =>
      rw [hc] at h
      simpa [hc] using ih h
    | some value =>
      simp only [hc] at h
      split at h
      · simp at h
      · simpa [hc] using ih h

omit [Platform] in
theorem MetadataField.change_ne {field : MetadataField} {value : Bytes}
    (h : field.change = some value) : value ≠ field.current := by
  unfold MetadataField.change at h
  split at h
  · simp at h
  · split_ifs at h with hne
    rwa [← Option.some.inj h]

omit [Platform] in
/-- A metadata edit leaves what the verdict depends on, and it changes a field. -/
theorem metadataEdit_ok {input : ProjectMetadataUpdate}
    (h : metadataEdit input data cfg i p = .ok (some (updated, p'))) :
    p'.projectAlias = p.projectAlias ∧ p'.approval = p.approval ∧ p'.allow = p.allow ∧ p' ≠ p := by
  unfold metadataEdit at h
  split at h
  · simp at h
  · next u q c hf =>
    obtain ⟨hq, hc⟩ := applyFields_ok hf
    cases c with
    | false => simp at h
    | true =>
      obtain ⟨rfl, rfl⟩ : u = updated ∧ q = p' := by simpa using h
      simp only [metadataFields, List.foldl_cons, List.foldl_nil] at hq
      simp only [metadataFields, List.any_cons, List.any_nil, Bool.or_false, Bool.false_or] at hc
      -- which of the three fields are changed
      generalize h₁ : MetadataField.change ⟨str "bws_project_id", _, _, _⟩ = c₁ at hq hc
      generalize h₂ : MetadataField.change ⟨str "token_entry", _, _, _⟩ = c₂ at hq hc
      generalize h₃ : MetadataField.change ⟨str "working_dir", _, _, _⟩ = c₃ at hq hc
      refine ⟨?_, ?_, ?_, fun he => ?_⟩
      · subst hq
        cases c₁ <;> cases c₂ <;> cases c₃ <;> rfl
      · subst hq
        cases c₁ <;> cases c₂ <;> cases c₃ <;> rfl
      · subst hq
        cases c₁ <;> cases c₂ <;> cases c₃ <;> rfl
      · rw [he] at hq
        cases c₁ with
        | some v =>
          have := congrArg Project.bwsProjectID hq
          exact MetadataField.change_ne h₁ (by cases c₂ <;> cases c₃ <;> exact this.symm)
        | none =>
          cases c₂ with
          | some v =>
            have := congrArg Project.tokenEntry hq
            exact MetadataField.change_ne h₂ (by cases c₃ <;> exact this.symm)
          | none =>
            cases c₃ with
            | some v => exact MetadataField.change_ne h₃ (congrArg Project.workingDir hq).symm
            | none => simp at hc

omit [Platform] in
/-- The common shape of the other edits: nothing to do, or one call of a byte-level function. -/
theorem ite_map_ok {c : Prop} [Decidable c] {x : Except Bytes Bytes} {q : Project}
    (h : (if c then .ok none else x.map fun u => some (u, q)) = .ok (some (updated, p'))) :
    ¬c ∧ x = .ok updated ∧ p' = q := by
  by_cases hc : c
  · simp [hc] at h
  · rw [if_neg hc] at h
    cases x with
    | error e => simp [Except.map] at h
    | ok u =>
      simp only [Except.map, Except.ok.injEq, Option.some.injEq, Prod.mk.injEq] at h
      exact ⟨hc, by rw [h.1], h.2.symm⟩

omit [Platform] in
theorem approvalEdit_ok {approval : Bytes}
    (h : approvalEdit approval data cfg i p = .ok (some (updated, p'))) :
    p' = { p with approval := approval } ∧ p' ≠ p := by
  obtain ⟨hne, -, rfl⟩ := ite_map_ok h
  exact ⟨rfl, fun he => hne (congrArg Project.approval he).symm⟩

omit [Platform] in
theorem addEdit_ok {argv : List Bytes} (h : addEdit argv data cfg i p = .ok (some (updated, p'))) :
    p' = { p with allow := Slice.ofAppend (p.allow.elems ++ [⟨argv⟩]) } ∧ p' ≠ p := by
  obtain ⟨-, -, rfl⟩ := ite_map_ok h
  refine ⟨rfl, fun he => ?_⟩
  have := congrArg (fun q : Project => q.allow.elems.length) he
  simp at this

omit [Platform] in
theorem removeEdit_ok {argv : List Bytes}
    (h : removeEdit argv data cfg i p = .ok (some (updated, p'))) :
    p' = { p with allow := Slice.ofAppend (p.allow.elems.filter fun e => e.argv != argv) } ∧
      p' ≠ p := by
  obtain ⟨hne, -, rfl⟩ := ite_map_ok h
  refine ⟨rfl, fun he => hne ?_⟩
  -- nothing was filtered out, so no index was to be removed
  have hall : p.allow.elems.filter (fun e => e.argv != argv) = p.allow.elems := by
    simpa using congrArg (fun q : Project => q.allow.elems) he
  rw [List.filter_eq_self] at hall
  refine List.filter_eq_nil_iff.2 fun k _ hk => ?_
  cases hg : p.allow.elems[k]? with
  | none => simp [hg] at hk
  | some e =>
    have h₁ := hall e (List.mem_of_getElem? hg)
    simp [hg] at hk
    simp [hk] at h₁

end ProjectEdits

theorem removeProject_ok {name data updated : Bytes} {cfg : Config}
    (h : removeProject name data cfg = .ok updated) :
    ∃ before p after, cfg.projects = before ++ p :: after ∧ p.projectAlias = name ∧
      findProject cfg name = .ok before.length ∧
      removeProjectSpan data cfg.projects.length before.length = .ok updated ∧
      withoutProject cfg before.length = { cfg with projects := before ++ after } ∧
      Config.parse updated = .ok (withoutProject cfg before.length) ∧
      (withoutProject cfg before.length).validateWorker = .ok () := by
  obtain ⟨i, hi, h⟩ := bind_eq_ok.1 h
  obtain ⟨before, p, after, hps, rfl, hname, -⟩ := findProject_ok hi
  split_ifs at h with hlen
  obtain ⟨u, hu, h⟩ := bind_eq_ok.1 h
  obtain ⟨ok, hv, h⟩ := bind_eq_ok.1 h
  obtain rfl : u = updated := by simpa [pure, Except.pure] using h
  exact ⟨before, p, after, hps, hname, hi, hu, by simp [withoutProject, hps, List.eraseIdx_append],
    validateUpdate_ok hv⟩

/-- `RestoreProject` writes the stored policy, and only over what removing the project from it
gives. -/
theorem restoreProject_ok {artifact : RecoveryArtifact} {data updated : Bytes} {cfg : Config}
    (h : restoreProject artifact data cfg = .ok updated) :
    updated = artifact.policy ∧ hexDigest data = artifact.afterSHA256 ∧
      ∃ stored i, Config.parse artifact.policy = .ok stored ∧
        stored.validateWorker = .ok () ∧ findProject stored artifact.project = .ok i ∧
        withoutProject stored i = cfg ∧
        removeProjectSpan artifact.policy stored.projects.length i = .ok data := by
  unfold restoreProject at h
  split_ifs at h with hd
  split at h
  · simp at h
  · next stored hs =>
    split at h
    · simp at h
    · next hw =>
      split at h
      · simp at h
      · next i hi =>
        split_ifs at h with he
        split at h
        · simp at h
        · next removed hr =>
          split_ifs at h with hb
          obtain rfl := Except.ok.inj h
          exact ⟨rfl, not_not.1 hd, stored, i, hs, hw, hi, not_not.1 he, by rw [hr, not_not.1 hb]⟩

end SecretsBroker.Admin
