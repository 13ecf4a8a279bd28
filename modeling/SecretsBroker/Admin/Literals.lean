import SecretsBroker.Admin.Meaning
import SecretsBroker.Foundations.Toml

/-!
# The strings of a policy as literals

`appendProject`, `replaceProjectField` and `insertAllowEntry` write strings into a TOML document as
`json.Marshal` writes them. What a reader of TOML takes these literals for is a function of the
grammar alone (`Mutation.reread`), and the decoder is assumed to read a text with new literals in it
as the old one with their values, and to refuse it when one of them is no literal (`ReadsAs`).

`literals_agree_iff`: the literals have the value they were written for, and the edit passes its
validation, exactly when no string contains U+007F, which JSON writes raw.
-/

namespace SecretsBroker.Admin

open Fallible Utf8

/-! ## What is written and what is read -/

/-- The fields that an update changes. -/
def ProjectMetadataUpdate.changes (u : ProjectMetadataUpdate) (p : Project) :
    ProjectMetadataUpdate where
  bwsProjectID := u.bwsProjectID.filter fun v => v ≠ p.bwsProjectID
  tokenEntry := u.tokenEntry.filter fun v => v ≠ p.tokenEntry
  workingDir := u.workingDir.filter fun v => v ≠ p.workingDir

/-- The mutation without the fields that have their value already. -/
def Mutation.changes (cfg : Config) : Mutation → Mutation
  | .updateProjectMetadata name input =>
    .updateProjectMetadata name ((cfg.project name).elim input input.changes)
  | m => m

/-- The strings that a mutation writes into the policy as literals. -/
def Mutation.strings : Mutation → List Bytes
  | .createProject input =>
    [input.projectAlias, input.bwsProjectID, input.tokenEntry, input.workingDir]
  | .updateProjectMetadata _ input =>
    input.bwsProjectID.toList ++ input.tokenEntry.toList ++ input.workingDir.toList
  | .addAllowlist _ argv => argv
  | .setApproval _ _ | .removeAllowlist _ _ => []

/-- What TOML takes the literal of a string for. -/
def reread (s : Bytes) : Option Bytes := Toml.basicString (Json.encodeString s)

/-- What TOML takes the literal of a field for, where it is written. -/
def rereadField : Option Bytes → Option (Option Bytes)
  | none => some none
  | some s => (reread s).map some

/-- The mutation with the values that TOML takes its literals for. -/
def Mutation.reread : Mutation → Option Mutation
  | .createProject input => do
    let projectAlias ← Admin.reread input.projectAlias
    let bwsProjectID ← Admin.reread input.bwsProjectID
    let tokenEntry ← Admin.reread input.tokenEntry
    let workingDir ← Admin.reread input.workingDir
    some (.createProject ⟨projectAlias, bwsProjectID, tokenEntry, workingDir⟩)
  | .updateProjectMetadata name input => do
    let bwsProjectID ← rereadField input.bwsProjectID
    let tokenEntry ← rereadField input.tokenEntry
    let workingDir ← rereadField input.workingDir
    some (.updateProjectMetadata name ⟨bwsProjectID, tokenEntry, workingDir⟩)
  | .addAllowlist name argv =>
    (Toml.stringArray (encodeArgv argv)).map fun argv => .addAllowlist name argv
  | m => some m

theorem reread_eq {s : Bytes} (hs : Valid s) : reread s = if 0x7F ∈ s then none else some s :=
  Toml.basicString_encodeString hs

theorem rereadField_eq {v : Option Bytes} (hv : ∀ s ∈ v.toList, Valid s) :
    rereadField v = if ∃ s ∈ v.toList, 0x7F ∈ s then none else some v := by
  cases v with
  | none => simp [rereadField]
  | some s =>
    rw [rereadField, reread_eq (hv s (by simp))]
    by_cases h : 0x7F ∈ s <;> simp [h]

/-- **What is read is what was written**, unless one of the strings contains U+007F. -/
theorem Mutation.reread_eq {m : Mutation} (hm : ∀ s ∈ m.strings, Valid s) :
    m.reread = if ∃ s ∈ m.strings, 0x7F ∈ s then none else some m := by
  cases m with
  | createProject input =>
    simp only [Mutation.strings, List.mem_cons, List.not_mem_nil, or_false, forall_eq_or_imp,
      forall_eq] at hm
    obtain ⟨h₁, h₂, h₃, h₄⟩ := hm
    simp only [Mutation.reread, Admin.reread_eq h₁, Admin.reread_eq h₂, Admin.reread_eq h₃,
      Admin.reread_eq h₄, Mutation.strings, List.mem_cons, List.not_mem_nil, or_false,
      exists_eq_or_imp, exists_eq_left]
    by_cases c₁ : 0x7F ∈ input.projectAlias
    · simp [c₁]
    by_cases c₂ : 0x7F ∈ input.bwsProjectID
    · simp [c₁, c₂]
    by_cases c₃ : 0x7F ∈ input.tokenEntry
    · simp [c₁, c₂, c₃]
    by_cases c₄ : 0x7F ∈ input.workingDir <;> simp [c₁, c₂, c₃, c₄]
  | updateProjectMetadata name input =>
    simp only [Mutation.strings, List.forall_mem_append] at hm
    obtain ⟨⟨h₁, h₂⟩, h₃⟩ := hm
    have hany : (∃ s ∈ input.bwsProjectID.toList ++ input.tokenEntry.toList ++
        input.workingDir.toList, 0x7F ∈ s) ↔ ((∃ s ∈ input.bwsProjectID.toList, 0x7F ∈ s) ∨
          ∃ s ∈ input.tokenEntry.toList, 0x7F ∈ s) ∨ ∃ s ∈ input.workingDir.toList, 0x7F ∈ s := by
      simp only [List.mem_append, or_and_right, exists_or]
    simp only [Mutation.reread, rereadField_eq h₁, rereadField_eq h₂, rereadField_eq h₃,
      Mutation.strings, hany]
    by_cases c₁ : ∃ s ∈ input.bwsProjectID.toList, 0x7F ∈ s
    · rw [if_pos c₁, if_pos (Or.inl (Or.inl c₁))]
      rfl
    by_cases c₂ : ∃ s ∈ input.tokenEntry.toList, 0x7F ∈ s
    · rw [if_neg c₁, if_pos c₂, if_pos (Or.inl (Or.inr c₂))]
      rfl
    by_cases c₃ : ∃ s ∈ input.workingDir.toList, 0x7F ∈ s
    · rw [if_neg c₁, if_neg c₂, if_pos c₃, if_pos (Or.inr c₃)]
      rfl
    · have hnone := not_or.2 ⟨not_or.2 ⟨c₁, c₂⟩, c₃⟩
      rw [if_neg c₁, if_neg c₂, if_neg c₃, if_neg hnone]
      rfl
  | addAllowlist name argv =>
    rw [Mutation.reread, encodeArgv, @Toml.stringArray_encodeArray argv hm]
    by_cases h : ∃ s ∈ argv, 0x7F ∈ s
    · rw [if_pos h, if_pos (show ∃ s ∈ (Mutation.addAllowlist name argv).strings, 0x7F ∈ s from h)]
      rfl
    · rw [if_neg h, if_neg (show ¬ ∃ s ∈ (Mutation.addAllowlist name argv).strings,
        0x7F ∈ s from h)]
      rfl
  | setApproval name mode => simp [Mutation.reread, Mutation.strings]
  | removeAllowlist name argv => simp [Mutation.reread, Mutation.strings]

/-! ## A valid mutation makes a valid configuration -/

/-- The default of `applyDefaults` for a project. -/
def defaulted (p : Project) : Project :=
  if p.approval = [] then { p with approval := Config.ApprovalNever } else p

theorem defaulted_alias (p : Project) : (defaulted p).projectAlias = p.projectAlias := by
  unfold defaulted
  split_ifs <;> rfl

theorem applyDefaults_projects [Platform] (raw : Config) (ps : List Project) :
    Config.applyDefaults { raw with projects := ps } =
      { Config.applyDefaults raw with projects := ps.map defaulted } := rfl

/-- A change of a project that keeps it valid and does not touch what has a default. -/
structure Sound (g : Project → Project) : Prop where
  projectAlias : ∀ p, (g p).projectAlias = p.projectAlias
  accepted : ∀ p, Config.ProjectAccepted p → Config.ProjectAccepted (g p)
  workingDir : ∀ p, Path.isAbs p.workingDir = true → Path.isAbs (g p).workingDir = true
  default : ∀ p, defaulted (g p) = g (defaulted p)

theorem defaulted_comm {g : Project → Project}
    (h : ∀ p a, g { p with approval := a } = { g p with approval := a }) (p : Project) :
    defaulted (g p) = g (defaulted p) := by
  have happroval : (g p).approval = p.approval := by
    have := congrArg Project.approval (h p p.approval)
    exact this
  unfold defaulted
  rw [happroval]
  split_ifs
  · exact (h p _).symm
  · rfl

theorem sound_apply {u : ProjectMetadataUpdate} (h : validateMetadataUpdate u = .ok ()) :
    Sound u.apply := by
  simp only [validateMetadataUpdate, throw_if_eq_ok] at h
  obtain ⟨-, hbws, htoken, hdir⟩ := h
  have hne : ∀ {v : Option Bytes} {x : Bytes}, v ≠ some [] → x ≠ [] → v.getD x ≠ [] := by
    intro v x hv hx
    cases v with
    | none => exact hx
    | some y => exact fun hy => hv (congrArg some hy)
  refine ⟨fun p => rfl, fun p hp => ?_, fun p hp => ?_, defaulted_comm fun p a => rfl⟩
  · exact ⟨hp.alias_ne, hne hbws hp.bwsProjectID_ne, hne htoken hp.tokenEntry_ne, hp.approval_mem,
      hp.argv_ne⟩
  · cases hd : u.workingDir with
    | none => simpa [ProjectMetadataUpdate.apply, hd] using hp
    | some dir =>
      rw [hd] at hdir
      simp only [throw_if_eq_ok, throw_else_eq_ok] at hdir
      simpa [ProjectMetadataUpdate.apply, hd] using hdir.2

theorem sound_withMode [Platform] {mode approval : Bytes} (h : storedApproval mode = .ok approval) :
    Sound (withMode mode) := by
  have hmode : approval ∈ Config.approvalModes := by
    unfold storedApproval at h
    split_ifs at h
    · obtain rfl := Except.ok.inj h
      decide
    · obtain rfl := Except.ok.inj h
      decide
  have hg : withMode mode = fun p => { p with approval := approval } := by
    funext p
    simp [withMode, h]
  have hne : approval ≠ [] := by
    rintro rfl
    exact absurd hmode (by decide)
  rw [hg]
  refine ⟨fun p => rfl, fun p hp => ?_, fun p hp => hp, fun p => ?_⟩
  · exact ⟨hp.alias_ne, hp.bwsProjectID_ne, hp.tokenEntry_ne, hmode, hp.argv_ne⟩
  · unfold defaulted
    rw [if_neg hne]
    split_ifs <;> rfl

/-- A change of the allowlist that keeps commands non-empty. -/
theorem sound_allow {f : Slice AllowEntry → Slice AllowEntry}
    (h : ∀ s, (∀ e ∈ Slice.elems s, e.argv ≠ []) → ∀ e ∈ (f s).elems, e.argv ≠ []) :
    Sound fun p => { p with allow := f p.allow } where
  projectAlias _ := rfl
  accepted p hp :=
    ⟨hp.alias_ne, hp.bwsProjectID_ne, hp.tokenEntry_ne, hp.approval_mem, h p.allow hp.argv_ne⟩
  workingDir _ hp := hp
  default := defaulted_comm fun _ _ => rfl

theorem sound_withCommand {argv : List Bytes} (h : argv ≠ []) : Sound (withCommand argv) := by
  let f (s : Slice AllowEntry) : Slice AllowEntry :=
    if argv ∈ (s.elems.map AllowEntry.argv) then s else Slice.ofAppend (s.elems ++ [⟨argv⟩])
  have hg : withCommand argv = fun p => { p with allow := f p.allow } := by
    funext p
    by_cases hmem : argv ∈ p.allowArgv
    · have hf : f p.allow = p.allow := if_pos hmem
      rw [withCommand, if_pos hmem, hf]
    · have hf : f p.allow = Slice.ofAppend (p.allow.elems ++ [⟨argv⟩]) := if_neg hmem
      rw [withCommand, if_neg hmem, hf]
  rw [hg]
  refine sound_allow fun s hs => ?_
  simp only [f]
  split_ifs
  · exact hs
  · simp only [Slice.elems_ofAppend, List.mem_append, List.mem_singleton]
    rintro entry (hentry | rfl)
    · exact hs entry hentry
    · exact h

theorem sound_withoutCommand (argv : List Bytes) : Sound (withoutCommand argv) := by
  let f (s : Slice AllowEntry) : Slice AllowEntry :=
    if argv ∈ (s.elems.map AllowEntry.argv) then
      Slice.ofAppend (s.elems.filter fun entry => entry.argv != argv)
    else s
  have hg : withoutCommand argv = fun p => { p with allow := f p.allow } := by
    funext p
    by_cases hmem : argv ∈ p.allowArgv
    · have hf : f p.allow = Slice.ofAppend (p.allow.elems.filter fun entry => entry.argv != argv) :=
        if_pos hmem
      rw [withoutCommand, if_pos hmem, hf]
    · have hf : f p.allow = p.allow := if_neg hmem
      rw [withoutCommand, if_neg hmem, hf]
  rw [hg]
  refine sound_allow fun s hs => ?_
  simp only [f]
  split_ifs
  · simp only [Slice.elems_ofAppend]
    exact fun entry hentry => hs entry (List.mem_of_mem_filter hentry)
  · exact hs

section Meaning

variable [Platform] {cfg raw : Config} {name : Bytes} {g : Project → Project}

theorem applyDefaults_editing (hg : ∀ p, defaulted (g p) = g (defaulted p)) :
    Config.applyDefaults (editing raw name g) = editing (Config.applyDefaults raw) name g := by
  have hprojects : ∀ c : Config, (Config.applyDefaults c).projects = c.projects.map defaulted :=
    fun _ => rfl
  have hcomm : (raw.projects.map fun p => if p.projectAlias = name then g p else p).map defaulted =
      (raw.projects.map defaulted).map fun p => if p.projectAlias = name then g p else p := by
    rw [List.map_map, List.map_map]
    refine List.map_congr_left fun p _ => ?_
    simp only [Function.comp_apply, defaulted_alias]
    split_ifs
    · exact hg p
    · rfl
  rw [editing, applyDefaults_projects, editing, hprojects, hcomm]

omit [Platform] in
theorem accepted_editing (ha : cfg.Accepted) (hg : Sound g) : (editing cfg name g).Accepted := by
  have halias : ∀ p : Project, (if p.projectAlias = name then g p else p).projectAlias =
      p.projectAlias := by
    intro p
    split_ifs
    · exact hg.projectAlias p
    · rfl
  refine ⟨?_, ?_, ?_⟩
  · simpa [editing] using ha.projects_ne
  · have hmap : (editing cfg name g).projects.map Project.projectAlias =
        cfg.projects.map Project.projectAlias := by
      rw [editing, List.map_map]
      exact List.map_congr_left fun p _ => halias p
    rw [hmap]
    exact ha.nodup
  · intro q hq
    obtain ⟨p, hp, rfl⟩ := List.mem_map.1 hq
    split_ifs
    · exact hg.accepted p (ha.project p hp)
    · exact ha.project p hp

omit [Platform] in
theorem isAbs_editing (hg : Sound g) (h : ∀ p ∈ cfg.projects, Path.isAbs p.workingDir = true) :
    ∀ p ∈ (editing cfg name g).projects, Path.isAbs p.workingDir = true := by
  intro q hq
  obtain ⟨p, hp, rfl⟩ := List.mem_map.1 hq
  split_ifs
  · exact hg.workingDir p (h p hp)
  · exact h p hp

/-- The configuration that is meant is valid, and the defaults may be applied before or after. -/
structure Mutation.Fits (m : Mutation) (cfg raw : Config) : Prop where
  accepted : (m.meaning cfg).Accepted
  isAbs : ∀ p ∈ (m.meaning cfg).projects, Path.isAbs p.workingDir = true
  sources : { cfg with projects := (m.meaning cfg).projects } = m.meaning cfg
  default : Config.applyDefaults (m.meaning raw) = m.meaning (Config.applyDefaults raw)

theorem Mutation.fits_editing {m : Mutation} (ha : cfg.Accepted)
    (habs : ∀ p ∈ cfg.projects, Path.isAbs p.workingDir = true) (hg : Sound g)
    (hm : ∀ c, m.meaning c = editing c name g) : m.Fits cfg raw where
  accepted := hm cfg ▸ accepted_editing ha hg
  isAbs := hm cfg ▸ isAbs_editing hg habs
  sources := by
    rw [hm]
    rfl
  default := by
    rw [hm, hm]
    exact applyDefaults_editing hg.default

/-- **A mutation that passes its checks makes a valid configuration of a valid one.** -/
theorem Mutation.fits {m : Mutation} (ha : cfg.Accepted)
    (habs : ∀ p ∈ cfg.projects, Path.isAbs p.workingDir = true) (hcheck : m.check = .ok ())
    (hfinds : m.Finds cfg) : m.Fits cfg raw := by
  cases m with
  | createProject input =>
    simp only [Mutation.check, validateProjectInput, throw_if_eq_ok, throw_else_eq_ok] at hcheck
    obtain ⟨halias, hbws, htoken, -, habs'⟩ := hcheck
    have hnew : ∀ p ∈ cfg.projects, p.projectAlias ≠ input.projectAlias := by
      intro p hp heq
      have hnone := List.find?_eq_none.1 hfinds p hp
      exact hnone (by simpa using heq)
    have happroval : input.project.approval ∈ Config.approvalModes := by
      change Config.ApprovalAllowlistedPrompt ∈ Config.approvalModes
      decide
    refine ⟨⟨by simp [Mutation.meaning], ?_, fun p hp => ?_⟩, fun p hp => ?_, rfl, ?_⟩
    · simp only [Mutation.meaning, List.map_append, List.map_cons, List.map_nil]
      rw [← List.concat_eq_append, List.nodup_concat]
      refine ⟨fun hmem => ?_, ha.nodup⟩
      obtain ⟨p, hp, heq⟩ := List.mem_map.1 hmem
      exact hnew p hp heq
    · rcases List.mem_append.1 hp with hp | hp
      · exact ha.project p hp
      · obtain rfl := List.mem_singleton.1 hp
        exact ⟨halias, hbws, htoken, happroval, fun entry hentry => by cases hentry⟩
    · rcases List.mem_append.1 hp with hp | hp
      · exact habs p hp
      · obtain rfl := List.mem_singleton.1 hp
        exact (by simpa using habs' : Path.isAbs input.workingDir = true)
    · have hnew : defaulted input.project = input.project := rfl
      simp only [Mutation.meaning, applyDefaults_projects, List.map_append, List.map_cons,
        List.map_nil, hnew]
      rfl
  | updateProjectMetadata name input => exact fits_editing ha habs (sound_apply hcheck) fun _ => rfl
  | setApproval name mode =>
    cases hmode : storedApproval mode with
    | error e =>
      rw [Mutation.check, hmode] at hcheck
      cases hcheck
    | ok approval => exact fits_editing ha habs (sound_withMode hmode) fun _ => rfl
  | addAllowlist name argv =>
    have hne : argv ≠ [] := by
      rintro rfl
      cases hcheck
    exact fits_editing ha habs (sound_withCommand hne) fun _ => rfl
  | removeAllowlist name argv => exact fits_editing ha habs (sound_withoutCommand argv) fun _ => rfl

end Meaning

/-! ## The edits -/

section Edits

variable [Platform] {cfg raw : Config} {data updated : Bytes} {m : Mutation}

/-- The text that an edit of one project writes, before it is validated. -/
def editText (name : Bytes) (edit : ProjectEdit) (data : Bytes) (cfg : Config) :
    Except Bytes (Option Bytes) := do
  let projectIndex ← findProject cfg name
  match cfg.projects[projectIndex]? with
  | none => pure none
  | some project => (edit data cfg projectIndex project).map fun r => r.map Prod.fst

/-- The text that a mutation writes, before it is validated. -/
def Mutation.text : Mutation → Bytes → Config → Except Bytes (Option Bytes)
  | .createProject input, data, cfg =>
    if cfg.projects.any fun p => p.projectAlias == input.projectAlias then
      .error (str "project " ++ quote input.projectAlias ++ str " already exists")
    else .ok (some (appendProject data input.project))
  | .updateProjectMetadata name input, data, cfg => editText name (metadataEdit input) data cfg
  | .setApproval name mode, data, cfg => do
    let approval ← storedApproval mode
    editText name (approvalEdit approval) data cfg
  | .addAllowlist name argv, data, cfg => editText name (addEdit argv) data cfg
  | .removeAllowlist name argv, data, cfg => editText name (removeEdit argv) data cfg

theorem validateUpdate_ok_iff {expected : Config} {message : Bytes} :
    validateUpdate updated expected message = .ok () ↔
      Config.parse updated = .ok expected ∧ expected.validateWorker = .ok () := by
  refine ⟨validateUpdate_ok, ?_⟩
  rintro ⟨hparse, hworker⟩
  simp only [validateUpdate, hparse, hworker, if_true]

theorem editProject_eq_ok_iff {name message : Bytes} {edit : ProjectEdit} {g : Project → Project}
    (ha : cfg.Accepted) (hg : Means edit g) (h : editText name edit data cfg = .ok (some updated)) :
    (∃ p, cfg.project name = some p) ∧
    (editProject name message edit data cfg = .ok (some updated) ↔
      validateUpdate updated (editing cfg name g) message = .ok ()) := by
  obtain ⟨i, hi, h⟩ := bind_eq_ok.1 h
  obtain ⟨before, p, after, hps, rfl, hname, hbefore⟩ := findProject_ok hi
  have hp : cfg.projects[before.length]? = some p := by simp [hps]
  simp only [hp] at h
  cases hedit : edit data cfg before.length p with
  | error e =>
    rw [hedit] at h
    cases h
  | ok r =>
    rw [hedit] at h
    rcases hg _ _ _ _ _ hedit with ⟨rfl, -⟩ | ⟨u, rfl⟩
    · cases h
    · obtain rfl : u = updated := by simpa [Except.map] using h
      have hcfg : withProject cfg before.length (g p) = editing cfg name g := by
        rw [editing_eq ha.nodup hps hname]
        simp [withProject, hps]
      refine ⟨⟨p, ?_⟩, ?_⟩
      · rw [show cfg = { cfg with projects := before ++ p :: after } by rw [← hps]]
        exact project_split hname hbefore
      · simp only [editProject, hi, hp, hedit, hcfg, bind, Except.bind]
        cases validateUpdate u (editing cfg name g) message <;> simp [pure, Except.pure]

/-- Once a text is written, the edit succeeds when it parses to what the mutation means. -/
theorem Mutation.edit_eq_ok_iff (ha : cfg.Accepted) (h : m.text data cfg = .ok (some updated)) :
    m.Finds cfg ∧ (m.edit data cfg = .ok (some updated) ↔
      Config.parse updated = .ok (m.meaning cfg) ∧ (m.meaning cfg).validateWorker = .ok ()) := by
  cases m with
  | createProject input =>
    simp only [Mutation.text] at h
    split_ifs at h with hany
    obtain rfl := Option.some.inj (Except.ok.inj h)
    refine ⟨List.find?_eq_none.2 fun p hp heq => hany (List.any_eq_true.2 ⟨p, hp, heq⟩), ?_⟩
    have hmeaning : (Mutation.createProject input).meaning cfg =
        { cfg with projects := cfg.projects ++ [input.project] } := rfl
    rw [hmeaning, ← @validateUpdate_ok_iff _ _ _
      (str "updated policy changed fields outside the new project")]
    simp only [Mutation.edit, Admin.createProject, if_neg hany]
    cases validateUpdate (appendProject data input.project)
      { cfg with projects := cfg.projects ++ [input.project] }
      (str "updated policy changed fields outside the new project") <;>
      simp [bind, Except.bind, pure, Except.pure]
  | updateProjectMetadata name input =>
    rw [← validateUpdate_ok_iff]
    exact editProject_eq_ok_iff ha (metadataEdit_means input) h
  | setApproval name mode =>
    obtain ⟨approval, hmode, h⟩ := bind_eq_ok.1 h
    have hg : withMode mode = fun p => { p with approval := approval } := by
      funext p
      simp [withMode, hmode]
    have hedit := @editProject_eq_ok_iff _ _ _ _ _
      (str "updated policy changed fields outside the selected approval mode") _ _ ha
      (approvalEdit_means approval) h
    rw [validateUpdate_ok_iff, ← hg] at hedit
    simp only [Mutation.edit, hmode, bind, Except.bind]
    exact hedit
  | addAllowlist name argv =>
    rw [← validateUpdate_ok_iff]
    exact editProject_eq_ok_iff ha (addEdit_means argv) h
  | removeAllowlist name argv =>
    rw [← validateUpdate_ok_iff]
    exact editProject_eq_ok_iff ha (removeEdit_means argv) h

/-- The fields that have their value already do not matter. -/
theorem Mutation.meaning_changes (ha : cfg.Accepted) (m : Mutation) :
    (m.changes cfg).meaning cfg = m.meaning cfg := by
  cases m with
  | updateProjectMetadata name input =>
    simp only [Mutation.changes]
    cases hp : cfg.project name with
    | none => rfl
    | some p =>
      refine (editing_eq_iff ha.nodup hp).2 ?_
      have hfield : ∀ (v : Option Bytes) (x : Bytes),
          (v.filter fun y => y ≠ x).getD x = v.getD x := by
        intro v x
        cases v with
        | none => rfl
        | some y => by_cases hy : y = x <;> simp [Option.filter, hy]
      simp only [Option.elim_some, ProjectMetadataUpdate.apply, ProjectMetadataUpdate.changes,
        hfield]
  | createProject input => rfl
  | setApproval name mode => rfl
  | addAllowlist name argv => rfl
  | removeAllowlist name argv => rfl

/-- How the decoder reads a text into which literals were written: as the configuration before with
the values of the literals, and not at all where one of them is no literal of TOML. -/
def ReadsAs (raw : Config) (text : Bytes) : Option Mutation → Prop
  | some m => Platform.unmarshal text = .ok (m.meaning raw)
  | none => ∃ e, Platform.unmarshal text = .error e

theorem Mutation.applyDefaults_changes (hfits : m.Fits cfg raw) :
    Config.applyDefaults ((m.changes cfg).meaning raw) =
      (m.changes cfg).meaning (Config.applyDefaults raw) := by
  cases m with
  | updateProjectMetadata name input => exact applyDefaults_editing (defaulted_comm fun _ _ => rfl)
  | createProject input => exact hfits.default
  | setApproval name mode => exact hfits.default
  | addAllowlist name argv => exact hfits.default
  | removeAllowlist name argv => exact hfits.default

/-- **A mutation that passes its checks and finds an editable policy succeeds exactly when none of
the strings it writes contains U+007F.** -/
theorem Mutation.edit_iff_notMem (hraw : Platform.unmarshal data = .ok raw)
    (hcfg : Config.parse data = .ok cfg) (hworker : cfg.validateWorker = .ok ())
    (hcheck : m.check = .ok ()) (htext : m.text data cfg = .ok (some updated))
    (hvalid : ∀ s ∈ (m.changes cfg).strings, Valid s)
    (hread : ReadsAs raw updated (m.changes cfg).reread) :
    m.edit data cfg = .ok (some updated) ↔ ∀ s ∈ (m.changes cfg).strings, 0x7F ∉ s := by
  obtain ⟨raw', hraw', rfl, hval⟩ := Config.parse_eq_ok hcfg
  obtain rfl : raw = raw' := Except.ok.inj (hraw.symm.trans hraw')
  obtain ⟨htoken, happroval, ha⟩ := Config.validate_ok_iff.1 hval
  have habs :=
    (Config.validateWorker_projects hworker (Config.applyDefaults raw).projects).1 hworker
  obtain ⟨hfinds, hedit⟩ := m.edit_eq_ok_iff ha htext
  have hfits : m.Fits (Config.applyDefaults raw) raw := Mutation.fits ha habs hcheck hfinds
  rw [hedit]
  rw [Mutation.reread_eq hvalid] at hread
  by_cases hdel : ∃ s ∈ (m.changes (Config.applyDefaults raw)).strings, 0x7F ∈ s
  · rw [if_pos hdel] at hread
    obtain ⟨e, he⟩ := hread
    have hparse : Config.parse updated ≠ .ok (m.meaning (Config.applyDefaults raw)) := by
      simp [Config.parse, he]
    obtain ⟨s, hs, hmem⟩ := hdel
    exact ⟨fun h => absurd h.1 hparse, fun h => absurd hmem (h s hs)⟩
  · rw [if_neg hdel] at hread
    have hmeaning : Config.applyDefaults ((m.changes (Config.applyDefaults raw)).meaning raw) =
        m.meaning (Config.applyDefaults raw) := by
      rw [Mutation.applyDefaults_changes hfits, Mutation.meaning_changes ha]
    have hvalidate : Config.validate (m.meaning (Config.applyDefaults raw)) = .ok () := by
      refine Config.validate_ok_iff.2 ⟨?_, ?_, hfits.accepted⟩
      · rw [← hfits.sources]
        exact htoken
      · rw [← hfits.sources]
        exact happroval
    have hparse : Config.parse updated = .ok (m.meaning (Config.applyDefaults raw)) := by
      simp only [Config.parse, show Platform.unmarshal updated = _ from hread, hmeaning, hvalidate]
    have hworker' : (m.meaning (Config.applyDefaults raw)).validateWorker = .ok () := by
      rw [← hfits.sources]
      exact (Config.validateWorker_projects hworker _).2 hfits.isAbs
    exact ⟨fun _ s hs hmem => hdel ⟨s, hs, hmem⟩, fun _ => ⟨hparse, hworker'⟩⟩

end Edits

/-- A policy with one project. -/
def onePolicy : Bytes :=
  str "[[projects]]\nalias = \"app\"\nbws_project_id = \"p1\"\ntoken_entry = \"t1\"\nworking_dir = \"/srv/app\"\n"

def oneConfig : Config where
  runtime := ⟨str "/usr/bin/bws", str "/home/broker", str "/usr/bin"⟩
  tokenSource := ⟨Config.BackendFile, [], str "/etc/token"⟩
  approvalSource := ⟨Config.ApprovalBackendTailscaleRelay, ⟨str "http://relay", 2, 300⟩⟩
  projects := [⟨str "app", str "p1", str "t1", str "/srv/app", Config.ApprovalNever, none⟩]

/-- A decoder that reads the policy, and refuses a text with a raw U+007F. -/
@[reducible] def strictPlatform : Platform where
  isPrint c := 0x20 ≤ c.toNat ∧ c.toNat < 0x7F
  unmarshal data :=
    if 0x7F ∈ data then .error (str "toml: invalid character") else .ok oneConfig
  parseURL _ := some ⟨str "http", str "relay", false, [], [], []⟩

/-- A project in a directory whose name ends in U+007F. -/
def deleteInput : ProjectInput := ⟨str "web", str "p2", str "t2", str "/srv/web\x7f"⟩

end SecretsBroker.Admin
