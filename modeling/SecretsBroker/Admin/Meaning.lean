import SecretsBroker.Admin.Verdicts

/-!
# What a mutation means

The configuration that a mutation makes of another one, as a function (`Mutation.meaning`), without
the text. An edit that succeeds either leaves a text that already has the meaning, or gives one that
parses to it (`Mutation.edit_meaning`).
-/

namespace SecretsBroker.Admin

open Fallible

/-- The configuration with the projects of an alias changed. -/
def editing (cfg : Config) (name : Bytes) (g : Project → Project) : Config :=
  { cfg with projects := cfg.projects.map fun p => if p.projectAlias = name then g p else p }

/-- The project with the fields that an update names. -/
def ProjectMetadataUpdate.apply (u : ProjectMetadataUpdate) (p : Project) : Project :=
  { p with
    bwsProjectID := u.bwsProjectID.getD p.bwsProjectID
    tokenEntry := u.tokenEntry.getD p.tokenEntry
    workingDir := u.workingDir.getD p.workingDir }

/-- The project in an approval mode; a mode that cannot be stored changes nothing. -/
def withMode [Platform] (mode : Bytes) (p : Project) : Project :=
  match storedApproval mode with
  | .ok approval => { p with approval := approval }
  | .error _ => p

/-- The project with a command on its allowlist. -/
def withCommand (argv : List Bytes) (p : Project) : Project :=
  if argv ∈ p.allowArgv then p
  else { p with allow := Slice.ofAppend (p.allow.elems ++ [⟨argv⟩]) }

/-- The project without a command on its allowlist. -/
def withoutCommand (argv : List Bytes) (p : Project) : Project :=
  if argv ∈ p.allowArgv then
    { p with allow := Slice.ofAppend (p.allow.elems.filter fun entry => entry.argv != argv) }
  else p

section Editing

variable {cfg : Config} {before after : List Project} {p : Project} {name : Bytes}
  {g g' : Project → Project}

/-- Where aliases are unique one project is changed. -/
theorem editing_eq (ha : (cfg.projects.map Project.projectAlias).Nodup)
    (hps : cfg.projects = before ++ p :: after) (hname : p.projectAlias = name) :
    editing cfg name g = { cfg with projects := before ++ g p :: after } := by
  rw [hps, List.map_append, List.map_cons, List.nodup_middle, List.nodup_cons,
    ← List.map_append] at ha
  have hother : ∀ q ∈ before ++ after, q.projectAlias ≠ name := by
    rintro q hq rfl
    exact ha.1 (hname ▸ List.mem_map_of_mem hq)
  have hkeep : ∀ l : List Project, (∀ q ∈ l, q ∈ before ++ after) →
      l.map (fun q => if q.projectAlias = name then g q else q) = l := by
    intro l hl
    have : l.map (fun q => if q.projectAlias = name then g q else q) = l.map id :=
      List.map_congr_left fun q hq => if_neg (hother q (hl q hq))
    rw [this, List.map_id]
  have hb := hkeep before fun q hq => List.mem_append_left _ hq
  have haf := hkeep after fun q hq => List.mem_append_right _ hq
  rw [editing, hps, List.map_append, List.map_cons, hb, haf, if_pos hname]

/-- The project that the lookup finds, with its place in the list. -/
theorem exists_split_of_project (h : cfg.project name = some p) :
    ∃ before after, cfg.projects = before ++ p :: after ∧ p.projectAlias = name := by
  obtain ⟨hname, before, after, hps, -⟩ := List.find?_eq_some_iff_append.1 h
  exact ⟨before, after, hps, by simpa using hname⟩

/-- Two changes of a project differ where they differ on the one that the lookup finds. -/
theorem editing_eq_iff (ha : (cfg.projects.map Project.projectAlias).Nodup)
    (h : cfg.project name = some p) : editing cfg name g = editing cfg name g' ↔ g p = g' p := by
  obtain ⟨before, after, hps, hname⟩ := exists_split_of_project h
  rw [editing_eq ha hps hname, editing_eq ha hps hname]
  constructor
  · intro he
    have := congrArg Config.projects he
    simpa using this
  · intro he
    rw [he]

end Editing

/-! ## What the edits of a project do to it -/

/-- The edit changes a project as the function says, or finds it changed already. -/
def Means (edit : ProjectEdit) (g : Project → Project) : Prop :=
  ∀ data cfg i p r, edit data cfg i p = .ok r → (r = none ∧ g p = p) ∨ ∃ u, r = some (u, g p)

theorem metadataEdit_means (input : ProjectMetadataUpdate) :
    Means (metadataEdit input) input.apply := by
  intro data cfg i p r h
  unfold metadataEdit at h
  split at h
  · simp at h
  · next u q c hf =>
    obtain ⟨hq, hc⟩ := applyFields_ok hf
    -- a row changes its field to the value it names, or has none to change
    have row : ∀ (name current : Bytes) (value : Option Bytes) (f : Project → Bytes → Project),
        (MetadataField.change ⟨name, current, value, f⟩).getD current = value.getD current := by
      intro name current value f
      cases value with
      | none => rfl
      | some v =>
        by_cases hv : v = current <;> simp [MetadataField.change, hv]
    have happly : q = input.apply p := by
      simp only [metadataFields, List.foldl_cons, List.foldl_nil] at hq
      have h₁ := row (str "bws_project_id") p.bwsProjectID input.bwsProjectID fun p v =>
        { p with bwsProjectID := v }
      have h₂ := row (str "token_entry") p.tokenEntry input.tokenEntry fun p v =>
        { p with tokenEntry := v }
      have h₃ := row (str "working_dir") p.workingDir input.workingDir fun p v =>
        { p with workingDir := v }
      rw [hq, ProjectMetadataUpdate.apply, ← h₁, ← h₂, ← h₃]
      clear hq hc hf h₁ h₂ h₃
      generalize MetadataField.change ⟨str "bws_project_id", _, _, _⟩ = c₁
      generalize MetadataField.change ⟨str "token_entry", _, _, _⟩ = c₂
      generalize MetadataField.change ⟨str "working_dir", _, _, _⟩ = c₃
      cases c₁ <;> cases c₂ <;> cases c₃ <;> rfl
    cases c with
    | true => exact .inr ⟨u, by rw [← happly]; simpa using h.symm⟩
    | false =>
      refine .inl ⟨by simpa using h.symm, ?_⟩
      simp only [metadataFields, List.any_cons, List.any_nil, Bool.or_false, Bool.false_or,
        Bool.false_eq, Bool.or_eq_false_iff, Option.isSome_eq_false_iff,
        Option.isNone_iff_eq_none] at hc
      simp only [metadataFields, List.foldl_cons, List.foldl_nil, hc.1, hc.2.1, hc.2.2] at hq
      rw [← happly]
      exact hq

/-- The other edits have this shape. -/
theorem means_ite {edit : ProjectEdit} {g : Project → Project} (c : Project → Prop)
    [DecidablePred c] (x : Bytes → Config → ℕ → Project → Except Bytes Bytes)
    (h : ∀ data cfg i p, edit data cfg i p =
      if c p then .ok none else (x data cfg i p).map fun u => some (u, g p))
    (hc : ∀ p, c p → g p = p) : Means edit g := by
  intro data cfg i p r hr
  rw [h] at hr
  by_cases hp : c p
  · rw [if_pos hp] at hr
    exact .inl ⟨(Except.ok.inj hr).symm, hc p hp⟩
  · rw [if_neg hp] at hr
    cases hx : x data cfg i p with
    | error e => simp [hx, Except.map] at hr
    | ok u =>
      rw [hx] at hr
      exact .inr ⟨u, (Except.ok.inj hr).symm⟩

theorem approvalEdit_means (approval : Bytes) :
    Means (approvalEdit approval) fun p => { p with approval := approval } := by
  refine means_ite (fun p => p.approval = approval) _ (fun _ _ _ _ => rfl) fun p hp => ?_
  rw [← hp]

theorem any_argv_iff {p : Project} {argv : List Bytes} :
    (p.allow.elems.any fun entry => entry.argv == argv) = true ↔ argv ∈ p.allowArgv := by
  simp [Project.allowArgv]

theorem addEdit_means (argv : List Bytes) : Means (addEdit argv) (withCommand argv) := by
  refine means_ite (fun p => (p.allow.elems.any fun entry => entry.argv == argv) = true)
    (fun data cfg i p => insertAllowEntry data cfg.projects.length i p.allow.elems.length argv)
    (fun data cfg i p => ?_) fun p hp => if_pos (any_argv_iff.1 hp)
  unfold addEdit
  by_cases hp : argv ∈ p.allowArgv
  · simp only [any_argv_iff.2 hp, if_true]
  · have : ¬ (p.allow.elems.any fun entry => entry.argv == argv) = true := mt any_argv_iff.1 hp
    simp only [withCommand, hp, if_false, this]

theorem removedIndices_eq_nil_iff {p : Project} {argv : List Bytes} :
    removedIndices p.allow.elems argv = [] ↔ argv ∉ p.allowArgv := by
  rw [removedIndices, List.filter_eq_nil_iff]
  constructor
  · intro h hmem
    obtain ⟨entry, he, rfl⟩ := List.mem_map.1 hmem
    obtain ⟨k, hk, rfl⟩ := List.getElem_of_mem he
    exact h k (List.mem_range.2 hk) (by simp [hk])
  · intro h k hk hargv
    have hlt := List.mem_range.1 hk
    refine h (List.mem_map.2 ⟨p.allow.elems[k], List.getElem_mem hlt, ?_⟩)
    simpa [hlt] using hargv

theorem removeEdit_means (argv : List Bytes) : Means (removeEdit argv) (withoutCommand argv) := by
  refine means_ite (fun p => removedIndices p.allow.elems argv = [])
    (fun data cfg i p => removeAllowEntries data cfg.projects.length i p.allow.elems.length
      (removedIndices p.allow.elems argv))
    (fun data cfg i p => ?_) fun p hp => if_neg (removedIndices_eq_nil_iff.1 hp)
  by_cases hp : argv ∈ p.allowArgv
  · have hne : removedIndices p.allow.elems argv ≠ [] := fun h => removedIndices_eq_nil_iff.1 h hp
    simp only [removeEdit, withoutCommand, hne, hp, if_true, if_false]
  · have hnil := removedIndices_eq_nil_iff.2 hp
    simp only [removeEdit, hnil, if_true]

variable [Platform]

theorem editProject_meaning {name message data : Bytes} {cfg : Config} {edit : ProjectEdit}
    {g : Project → Project} {r : Option Bytes} (ha : cfg.Accepted) (hg : Means edit g)
    (h : editProject name message edit data cfg = .ok r) :
    (∃ p, cfg.project name = some p) ∧
      ((r = none ∧ editing cfg name g = cfg) ∨
        ∃ updated, r = some updated ∧ Config.parse updated = .ok (editing cfg name g)) := by
  obtain ⟨before, p, after, hps, hname, hbefore, hr⟩ := editProject_cases h
  have hcfg : cfg = { cfg with projects := before ++ p :: after } := by rw [← hps]
  refine ⟨⟨p, by rw [hcfg]; exact project_split hname hbefore⟩, ?_⟩
  rw [editing_eq ha.nodup hps hname]
  rcases hr with ⟨rfl, hedit⟩ | ⟨updated, p', rfl, hedit, hparse, -⟩
  · rcases hg _ _ _ _ _ hedit with ⟨-, hp⟩ | ⟨u, hu⟩
    · refine .inl ⟨rfl, ?_⟩
      rw [hp, ← hcfg]
    · simp at hu
  · rcases hg _ _ _ _ _ hedit with ⟨hu, -⟩ | ⟨u, hu⟩
    · simp at hu
    · obtain ⟨-, rfl⟩ := Prod.mk.inj (Option.some.inj hu)
      exact .inr ⟨updated, rfl, hparse⟩

/-- **What a mutation makes of a configuration.** -/
def Mutation.meaning (cfg : Config) : Mutation → Config
  | .createProject input => { cfg with projects := cfg.projects ++ [input.project] }
  | .updateProjectMetadata name input => editing cfg name input.apply
  | .setApproval name mode => editing cfg name (withMode mode)
  | .addAllowlist name argv => editing cfg name (withCommand argv)
  | .removeAllowlist name argv => editing cfg name (withoutCommand argv)

/-- The mutation adds a project under a new alias, or there is a project under the alias it is
about. -/
def Mutation.Finds (cfg : Config) : Mutation → Prop
  | .createProject input => cfg.project input.projectAlias = none
  | m => ∃ p, cfg.project m.target = some p

/-- **A successful edit does what the mutation means**, or it was done already. -/
theorem Mutation.edit_meaning {m : Mutation} {data : Bytes} {cfg : Config} {r : Option Bytes}
    (ha : cfg.Accepted) (h : m.edit data cfg = .ok r) :
    m.Finds cfg ∧ ((r = none ∧ m.meaning cfg = cfg) ∨
      ∃ updated, r = some updated ∧ Config.parse updated = .ok (m.meaning cfg)) := by
  cases m with
  | createProject input =>
    cases r with
    | none =>
      change Admin.createProject input data cfg = .ok none at h
      unfold Admin.createProject at h
      split_ifs at h
      obtain ⟨u, -, h⟩ := bind_eq_ok.1 h
      simp [pure, Except.pure] at h
    | some updated =>
      obtain ⟨hnew, -, hparse, -⟩ := createProject_ok h
      exact ⟨project_eq_none hnew, .inr ⟨updated, rfl, hparse⟩⟩
  | updateProjectMetadata name input => exact editProject_meaning ha (metadataEdit_means input) h
  | setApproval name mode =>
    obtain ⟨approval, hmode, h⟩ := bind_eq_ok.1 h
    have hg : withMode mode = fun p => { p with approval := approval } := by
      funext p
      simp [withMode, hmode]
    have := editProject_meaning ha (approvalEdit_means approval) h
    rwa [← hg] at this
  | addAllowlist name argv => exact editProject_meaning ha (addEdit_means argv) h
  | removeAllowlist name argv => exact editProject_meaning ha (removeEdit_means argv) h

end SecretsBroker.Admin
