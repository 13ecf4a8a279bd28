import Mathlib.Data.List.Nodup
import SecretsBroker.Admin.Edit

/-!
# What an edit does to the broker's verdicts

The broker looks a project up by its alias and decides on a command with that project alone. An edit
replaces, adds or removes one project of the list, so what it does to the lookup of every alias is
settled by where the first project with that alias stands (`project_split`). The results are
`Mutation.edit_effect`, `removeProject_effect` and `restoreProject_effect`; none of them looks at
the text.
-/

namespace SecretsBroker.Admin

open Fallible

/-- The broker's decision for an alias and a command; nothing for an unknown alias. -/
def verdict (cfg : Config) (name : Bytes) (argv : List Bytes) : Option Verdict :=
  (cfg.project name).map fun p => p.decide argv

/-- The verdict depends on the approval mode and on whether the command is listed. -/
theorem decide_congr {p p' : Project} {argv : List Bytes} (ha : p'.approval = p.approval)
    (hm : argv ∈ p'.allowArgv ↔ argv ∈ p.allowArgv) : p'.decide argv = p.decide argv := by
  have hmatch : Policy.matches? p'.allowArgv argv = Policy.matches? p.allowArgv argv := by
    rw [Bool.eq_iff_iff, Policy.matches?_iff, Policy.matches?_iff, hm]
  simp only [Project.decide, ha, hmatch]

section Lookup

variable {cfg : Config} {before after : List Project} {p : Project} {name : Bytes}

/-- The lookup in a list of projects, by the first one with the alias. -/
theorem project_split (hname : p.projectAlias = name)
    (hbefore : ∀ q ∈ before, q.projectAlias ≠ name) :
    ({ cfg with projects := before ++ p :: after } : Config).project name = some p := by
  have hnone : before.find? (fun q => q.projectAlias == name) = none := by
    simpa using hbefore
  simp [Config.project, List.find?_append, hnone, hname]

/-- For another alias the project does not count. -/
theorem project_skip {other : Bytes} (hne : p.projectAlias ≠ other) :
    ({ cfg with projects := before ++ p :: after } : Config).project other =
      ({ cfg with projects := before ++ after } : Config).project other := by
  simp [Config.project, List.find?_append, hne]

theorem project_eq_none (h : ∀ q ∈ cfg.projects, q.projectAlias ≠ name) :
    cfg.project name = none := by
  simpa [Config.project] using h

end Lookup

variable [Platform]

/-- The alias that a mutation is about. -/
def Mutation.target : Mutation → Bytes
  | .createProject input => input.projectAlias
  | .updateProjectMetadata name _ | .setApproval name _ | .addAllowlist name _
  | .removeAllowlist name _ => name

/-- What a mutation is meant to do to the project it is about. -/
def Mutation.Effect (cfg cfg' : Config) : Mutation → Prop
  | .createProject input => cfg.project input.projectAlias = none ∧
      ∀ argv, verdict cfg' input.projectAlias argv = some .deny
  | .updateProjectMetadata name _ => ∀ argv, verdict cfg' name argv = verdict cfg name argv
  | .setApproval name mode => ∃ p approval, storedApproval mode = .ok approval ∧
      cfg.project name = some p ∧ cfg'.project name = some { p with approval := approval }
  | .addAllowlist name v => (∀ argv, argv ≠ v → verdict cfg' name argv = verdict cfg name argv) ∧
      ∃ p, cfg'.project name = some p ∧ Policy.matches? p.allowArgv v = true
  | .removeAllowlist name v =>
      (∀ argv, argv ≠ v → verdict cfg' name argv = verdict cfg name argv) ∧
      ∃ p, cfg'.project name = some p ∧ Policy.matches? p.allowArgv v = false

/-- An edit of one project, seen by the lookup. -/
theorem editProject_lookup {name message data updated : Bytes} {cfg : Config}
    {edit : ProjectEdit} (h : editProject name message edit data cfg = .ok (some updated))
    (halias : ∀ i p p', edit data cfg i p = .ok (some (updated, p')) →
      p'.projectAlias = p.projectAlias) :
    ∃ cfg' i p p', Config.parse updated = .ok cfg' ∧ edit data cfg i p = .ok (some (updated, p')) ∧
      cfg.project name = some p ∧ cfg'.project name = some p' ∧
      ∀ other, other ≠ name → cfg'.project other = cfg.project other := by
  obtain ⟨before, p, after, p', hps, hname, hbefore, hedit, hparse, -⟩ := editProject_ok h
  have hname' : p'.projectAlias = name := (halias _ _ _ hedit).trans hname
  have hcfg : cfg = { cfg with projects := before ++ p :: after } := by rw [← hps]
  refine ⟨_, _, p, p', hparse, hedit, ?_, project_split hname' hbefore, ?_⟩
  · rw [hcfg]
    exact project_split hname hbefore
  · intro other hne
    conv_rhs => rw [hcfg]
    rw [project_skip (by rw [hname']; exact Ne.symm hne),
      project_skip (by rw [hname]; exact Ne.symm hne)]

/-- **An edit changes what it names**: every other alias is looked up as before, and the selected
one as the mutation says. -/
theorem Mutation.edit_effect {m : Mutation} {data updated : Bytes} {cfg : Config}
    (h : m.edit data cfg = .ok (some updated)) :
    ∃ cfg', Config.parse updated = .ok cfg' ∧ m.Effect cfg cfg' ∧
      ∀ other, other ≠ m.target → cfg'.project other = cfg.project other := by
  cases m with
  | createProject input =>
    obtain ⟨hnew, -, hparse, -⟩ := createProject_ok h
    have hsplit : ({ cfg with projects := cfg.projects ++ [input.project] } : Config).project
        input.projectAlias = some input.project := project_split rfl hnew
    refine ⟨_, hparse, ⟨project_eq_none hnew, fun argv => ?_⟩, fun other hne => ?_⟩
    · rw [verdict, hsplit]
      rfl
    · exact (project_skip (Ne.symm hne)).trans (by rw [List.append_nil])
  | updateProjectMetadata name input =>
    change editProject name _ (metadataEdit input) data cfg = _ at h
    obtain ⟨cfg', i, p, p', hparse, hedit, hp, hp', hother⟩ :=
      editProject_lookup h fun i p p' h => (metadataEdit_ok h).1
    obtain ⟨-, ha, hallow, -⟩ := metadataEdit_ok hedit
    refine ⟨cfg', hparse, fun argv => ?_, hother⟩
    simp only [verdict, hp, hp', Option.map_some]
    rw [decide_congr ha (by simp [Project.allowArgv, hallow])]
  | setApproval name mode =>
    obtain ⟨approval, hmode, h⟩ := bind_eq_ok.1 h
    obtain ⟨cfg', i, p, p', hparse, hedit, hp, hp', hother⟩ :=
      editProject_lookup h fun i p p' h => by rw [(approvalEdit_ok h).1]
    obtain ⟨rfl, -⟩ := approvalEdit_ok hedit
    exact ⟨cfg', hparse, ⟨p, approval, hmode, hp, hp'⟩, hother⟩
  | addAllowlist name v =>
    change editProject name _ (addEdit v) data cfg = _ at h
    obtain ⟨cfg', i, p, p', hparse, hedit, hp, hp', hother⟩ :=
      editProject_lookup h fun i p p' h => by rw [(addEdit_ok h).1]
    obtain ⟨rfl, -⟩ := addEdit_ok hedit
    refine ⟨cfg', hparse, ⟨fun argv hne => ?_, _, hp', ?_⟩, hother⟩
    · simp only [verdict, hp, hp', Option.map_some]
      refine congrArg some (decide_congr (p := p) rfl ?_)
      simp [Project.allowArgv, hne]
    · rw [Policy.matches?_iff]
      simp [Project.allowArgv]
  | removeAllowlist name v =>
    change editProject name _ (removeEdit v) data cfg = _ at h
    obtain ⟨cfg', i, p, p', hparse, hedit, hp, hp', hother⟩ :=
      editProject_lookup h fun i p p' h => by rw [(removeEdit_ok h).1]
    obtain ⟨rfl, -⟩ := removeEdit_ok hedit
    refine ⟨cfg', hparse, ⟨fun argv hne => ?_, _, hp', ?_⟩, hother⟩
    · simp only [verdict, hp, hp', Option.map_some]
      refine congrArg some (decide_congr (p := p) rfl ?_)
      simp only [Project.allowArgv, Slice.elems_ofAppend, List.mem_map, List.mem_filter]
      constructor
      · rintro ⟨e, ⟨he, -⟩, hv⟩
        exact ⟨e, he, hv⟩
      · rintro ⟨e, he, rfl⟩
        exact ⟨e, ⟨he, by simpa using hne⟩, rfl⟩
    · rw [Bool.eq_false_iff, ne_eq, Policy.matches?_iff]
      simp [Project.allowArgv]

/-- Removing a project makes its alias unknown and leaves the others. -/
theorem removeProject_effect {name data updated : Bytes} {cfg : Config} (ha : cfg.Accepted)
    (h : removeProject name data cfg = .ok updated) :
    ∃ cfg', Config.parse updated = .ok cfg' ∧ cfg'.project name = none ∧
      ∀ other, other ≠ name → cfg'.project other = cfg.project other := by
  obtain ⟨before, p, after, hps, hname, -, -, hwithout, hparse, -⟩ := removeProject_ok h
  rw [hwithout] at hparse
  have hnodup := ha.nodup
  rw [hps, List.map_append, List.map_cons, List.nodup_middle, List.nodup_cons] at hnodup
  refine ⟨_, hparse, project_eq_none fun q hq he => hnodup.1 ?_, fun other hne => ?_⟩
  · rw [← List.map_append, hname, ← he]
    exact List.mem_map_of_mem hq
  · have hcfg : cfg = { cfg with projects := before ++ p :: after } := by rw [← hps]
    conv_rhs => rw [hcfg]
    exact (project_skip (by rw [hname]; exact Ne.symm hne)).symm

/-- Restoring a project gives the stored policy, which has the project and agrees with the current
one on the others. -/
theorem restoreProject_effect {artifact : RecoveryArtifact} {data updated : Bytes} {cfg : Config}
    (h : restoreProject artifact data cfg = .ok updated) :
    updated = artifact.policy ∧ ∃ stored p, Config.parse artifact.policy = .ok stored ∧
      stored.project artifact.project = some p ∧
      ∀ other, other ≠ artifact.project → stored.project other = cfg.project other := by
  obtain ⟨rfl, -, stored, i, hparse, -, hfind, rfl, -⟩ := restoreProject_ok h
  obtain ⟨before, p, after, hps, rfl, hname, hbefore⟩ := findProject_ok hfind
  have hstored : stored = { stored with projects := before ++ p :: after } := by rw [← hps]
  refine ⟨rfl, stored, p, hparse, ?_, fun other hne => ?_⟩
  · rw [hstored]
    exact project_split hname hbefore
  · have hwithout : withoutProject stored before.length =
        { stored with projects := before ++ after } := by
      simp [withoutProject, hps, List.eraseIdx_append]
    rw [hwithout]
    conv_lhs => rw [hstored]
    exact project_skip (by rw [hname]; exact Ne.symm hne)

/-! ## An edit changes the text -/

/-- Texts with different projects are different. -/
theorem ne_of_projects_ne {data updated : Bytes} {cfg cfg' : Config}
    (h : Config.parse data = .ok cfg) (h' : Config.parse updated = .ok cfg')
    (hne : cfg'.projects ≠ cfg.projects) : updated ≠ data := by
  rintro rfl
  exact hne (congrArg Config.projects (Except.ok.inj (h'.symm.trans h)))

theorem editProject_ne {name message data updated : Bytes} {cfg : Config} {edit : ProjectEdit}
    (hcfg : Config.parse data = .ok cfg)
    (h : editProject name message edit data cfg = .ok (some updated))
    (hne : ∀ i p p', edit data cfg i p = .ok (some (updated, p')) → p' ≠ p) : updated ≠ data := by
  obtain ⟨before, p, after, p', hps, -, -, hedit, hparse, -⟩ := editProject_ok h
  refine ne_of_projects_ne hcfg hparse fun he => hne _ _ _ hedit ?_
  rw [hps] at he
  simpa using he

theorem Mutation.edit_ne {m : Mutation} {data updated : Bytes} {cfg : Config}
    (hcfg : Config.parse data = .ok cfg) (h : m.edit data cfg = .ok (some updated)) :
    updated ≠ data := by
  cases m with
  | createProject input =>
    refine ne_of_projects_ne hcfg (createProject_ok h).2.2.1 fun he => ?_
    simpa using congrArg List.length he
  | updateProjectMetadata name input =>
    exact editProject_ne hcfg h fun _ _ _ hedit => (metadataEdit_ok hedit).2.2.2
  | setApproval name mode =>
    obtain ⟨approval, -, h⟩ := bind_eq_ok.1 h
    exact editProject_ne hcfg h fun _ _ _ hedit => (approvalEdit_ok hedit).2
  | addAllowlist name v => exact editProject_ne hcfg h fun _ _ _ hedit => (addEdit_ok hedit).2
  | removeAllowlist name v => exact editProject_ne hcfg h fun _ _ _ hedit => (removeEdit_ok hedit).2

theorem removeProject_ne {name data updated : Bytes} {cfg : Config}
    (hcfg : Config.parse data = .ok cfg) (h : removeProject name data cfg = .ok updated) :
    updated ≠ data := by
  obtain ⟨before, p, after, hps, -, -, -, hwithout, hparse, -⟩ := removeProject_ok h
  rw [hwithout] at hparse
  refine ne_of_projects_ne hcfg hparse fun he => ?_
  simpa [hps] using congrArg List.length he

theorem restoreProject_ne {artifact : RecoveryArtifact} {data updated : Bytes} {cfg : Config}
    (hcfg : Config.parse data = .ok cfg) (h : restoreProject artifact data cfg = .ok updated) :
    updated ≠ data := by
  obtain ⟨rfl, -, stored, i, hparse, -, hfind, rfl, -⟩ := restoreProject_ok h
  obtain ⟨before, p, after, hps, rfl, -, -⟩ := findProject_ok hfind
  refine ne_of_projects_ne hcfg hparse fun he => ?_
  simpa [withoutProject, hps, List.eraseIdx_append] using congrArg List.length he

end SecretsBroker.Admin
