import SecretsBroker.Admin.Outcomes
import SecretsBroker.Admin.Relayout

/-!
# A policy stays editable

The editor finds its way in a policy by header lines, the worker by parsing it. `Editable` says that
the two agree: the policy parses, for the worker too, and there is one `[[projects]]` line for each
project and, in its block, one `[[projects.allow]]` line for each entry of its allowlist. This is
what every later edit needs in order to find what it is asked to change.

An edit checks what its result parses to, and `Admin.Relayout` says what it does to the header
lines; so the agreement is kept (`Mutation.edit_laidOut`, `removeProject_laidOut`). A restoration
installs the policy of an artifact; in a run that published the artifact itself that policy is an
earlier version (`Versions`). Together: `policy_stays_editable`.
-/

namespace SecretsBroker.Admin

open Fallible Files Interaction Replacement

/-! ## The layout of a policy -/

/-- One project header for each project, and in its block one allowlist header for each entry. -/
structure LaidOut (data : Bytes) (projects : List Project) : Prop where
  headers : (findAllIndex projectHeaderPattern data).length = projects.length
  blocks : ∀ (i : ℕ) (p : Project), projects[i]? = some p → ∃ start stop,
    projectBlockBounds data projects.length i = .ok (start, stop) ∧
      (findAllIndex allowHeaderPattern (slice data start stop)).length = p.allow.elems.length

theorem length_counts_marks (data : Bytes) :
    (counts (marks data)).length = (findAllIndex projectHeaderPattern data).length := by
  rw [length_counts, count_project_marks, length_findAllIndex]

theorem exists_projectBlockBounds {data : Bytes} {n i : ℕ}
    (hn : (findAllIndex projectHeaderPattern data).length = n) (hi : i < n) :
    ∃ bounds, projectBlockBounds data n i = .ok bounds := by
  have hget : (findAllIndex projectHeaderPattern data)[i]? =
      some ((findAllIndex projectHeaderPattern data)[i]) := List.getElem?_eq_getElem (hn ▸ hi)
  rw [projectBlockBounds, projectHeader]
  simp only [hn, ne_eq, not_true_eq_false, if_false, hget]
  exact ⟨_, rfl⟩

/-- The block that the editor finds has as many allowlist headers as `counts` says. -/
theorem counts_getElem? {data : Bytes} {n i start stop : ℕ}
    (h : projectBlockBounds data n i = .ok (start, stop)) :
    (counts (marks data))[i]? =
      some (findAllIndex allowHeaderPattern (slice data start stop)).length := by
  obtain ⟨P, rfl, rfl, hslice⟩ := projectBlockBounds_ok h
  rw [hslice, ← P.length_marks_body, P.counts_eq, List.getElem?_append_right]
  · simp [P.length_counts_before]
  · rw [P.length_counts_before]

theorem laidOut_iff {data : Bytes} {projects : List Project} :
    LaidOut data projects ↔ counts (marks data) = projects.map fun p => p.allow.elems.length := by
  constructor
  · intro h
    refine List.ext_getElem? fun i => ?_
    rw [List.getElem?_map]
    cases hp : projects[i]? with
    | none =>
      rw [Option.map_none, List.getElem?_eq_none_iff, length_counts_marks, h.headers]
      exact List.getElem?_eq_none_iff.1 hp
    | some p =>
      obtain ⟨start, stop, hbounds, hlen⟩ := h.blocks i p hp
      rw [counts_getElem? hbounds, hlen, Option.map_some]
  · intro h
    have hlen : (findAllIndex projectHeaderPattern data).length = projects.length := by
      rw [← length_counts_marks, h, List.length_map]
    refine ⟨hlen, fun i p hp => ?_⟩
    obtain ⟨⟨start, stop⟩, hbounds⟩ :=
      exists_projectBlockBounds hlen (List.getElem?_eq_some_iff.1 hp).1
    have hget := counts_getElem? hbounds
    rw [h, List.getElem?_map, hp, Option.map_some] at hget
    exact ⟨start, stop, hbounds, (Option.some.inj hget).symm⟩

section Blocks

variable {data updated : Bytes} {before after : List Project} {p p' : Project}

/-- The layout around the block of one project. -/
theorem LaidOut.split (h : LaidOut data (before ++ p :: after))
    (P : Part projectHeaderPattern data before.length) :
    counts (marks P.before) = before.map (fun p => p.allow.elems.length) ∧
      (marks P.body).length = p.allow.elems.length ∧
      counts (marks P.after) = after.map fun p => p.allow.elems.length := by
  have hcounts := laidOut_iff.1 h
  rw [P.counts_eq, List.map_append, List.map_cons] at hcounts
  obtain ⟨hbefore, hrest⟩ :=
    List.append_inj hcounts (by rw [P.length_counts_before, List.length_map])
  obtain ⟨hbody, hafter⟩ := List.cons.inj hrest
  exact ⟨hbefore, hbody, hafter⟩

/-- A block with other allowlist headers, everything else as before. -/
theorem LaidOut.of_block (h : LaidOut data (before ++ p :: after))
    (P : Part projectHeaderPattern data before.length) {ms : List Mark} (hms : Mark.project ∉ ms)
    (hmarks : marks updated = marks P.before ++ .project :: ms ++ marks P.after)
    (hlen : ms.length = p'.allow.elems.length) : LaidOut updated (before ++ p' :: after) := by
  obtain ⟨hbefore, -, hafter⟩ := h.split P
  rw [laidOut_iff, hmarks, counts_block _ hms P.opens_after, hbefore, hafter, hlen]
  simp

theorem LaidOut.of_marks (h : LaidOut data (before ++ p :: after))
    (hmarks : marks updated = marks data) (hlen : p'.allow.elems.length = p.allow.elems.length) :
    LaidOut updated (before ++ p' :: after) := by
  rw [laidOut_iff, hmarks, laidOut_iff.1 h]
  simp [hlen]

end Blocks

/-! ## The edits keep the layout -/

section Edits

variable {data updated : Bytes} {cfg : Config} {before after : List Project} {p p' : Project}

theorem applyFields_marks {count i : ℕ} {fields : List MetadataField}
    (hf : ∀ field ∈ fields, Begins field.name) {c c' : Bool}
    (h : applyFields count i fields (data, p, c) = .ok (updated, p', c')) :
    marks updated = marks data := by
  induction fields generalizing data p c with
  | nil =>
    obtain ⟨rfl, -, -⟩ : data = updated ∧ p = p' ∧ c = c' := by simpa [applyFields] using h
    rfl
  | cons field fields ih =>
    have hrest : ∀ field ∈ fields, Begins field.name :=
      fun f hmem => hf f (List.mem_cons_of_mem _ hmem)
    rw [applyFields] at h
    cases hc : field.change with
    | none =>
      rw [hc] at h
      exact ih hrest h
    | some value =>
      simp only [hc] at h
      split at h
      · simp at h
      · next text htext =>
        rw [ih hrest h, replaceProjectField_marks (hf field List.mem_cons_self) htext]

theorem metadataEdit_marks {input : ProjectMetadataUpdate} {i : ℕ}
    (h : metadataEdit input data cfg i p = .ok (some (updated, p'))) :
    marks updated = marks data := by
  unfold metadataEdit at h
  split at h
  · simp at h
  · next text q c hfields =>
    cases c with
    | false => simp at h
    | true =>
      obtain ⟨rfl, rfl⟩ : text = updated ∧ q = p' := by simpa using h
      exact applyFields_marks (metadataFields_begins p input) hfields

/-- As many entries are removed as there are indices to remove. -/
theorem length_filter_add_removedIndices (allow : List AllowEntry) (argv : List Bytes) :
    (allow.filter fun e => e.argv != argv).length + (removedIndices allow argv).length =
      allow.length := by
  have hremoved : (removedIndices allow argv).length =
      (allow.filter fun e => e.argv == argv).length := by
    induction allow using List.reverseRecOn with
    | nil => rfl
    | append_singleton allow e ih =>
      have hsame : (List.range allow.length).filter (fun i =>
          ((allow ++ [e])[i]?).map AllowEntry.argv == some argv) = removedIndices allow argv := by
        refine List.filter_congr fun i hi => ?_
        rw [List.getElem?_append_left (List.mem_range.1 hi)]
      have hlast : (allow ++ [e])[allow.length]? = some e := by simp
      rw [removedIndices, List.length_append, List.length_singleton, List.range_succ,
        List.filter_append, hsame, List.length_append, ih, List.filter_append, List.length_append]
      congr 1
      simp only [List.filter_cons, List.filter_nil, hlast, Option.map_some]
      by_cases he : e.argv = argv <;> simp [he]
  rw [hremoved, Nat.add_comm]
  have h := List.length_eq_countP_add_countP (fun e : AllowEntry => e.argv == argv) (l := allow)
  rw [List.countP_eq_length_filter, List.countP_eq_length_filter] at h
  rw [h]
  congr 2
  refine List.filter_congr fun e _ => ?_
  by_cases he : e.argv = argv <;> simp [he]

variable [Platform]

theorem newline_storedApproval {mode approval : Bytes} (h : storedApproval mode = .ok approval) :
    newline ∉ approval := by
  unfold storedApproval at h
  split_ifs at h <;> obtain rfl := Except.ok.inj h <;> decide +kernel

theorem editProject_laidOut {name message : Bytes} {edit : ProjectEdit}
    (hedit : ∀ before p after p', cfg.projects = before ++ p :: after →
      edit data cfg before.length p = .ok (some (updated, p')) →
      LaidOut updated (before ++ p' :: after))
    (h : editProject name message edit data cfg = .ok (some updated)) :
    ∃ cfg', Config.parse updated = .ok cfg' ∧ cfg'.validateWorker = .ok () ∧
      LaidOut updated cfg'.projects := by
  obtain ⟨before, p, after, p', hps, -, -, hr, hparse, hworker⟩ := editProject_ok h
  exact ⟨_, hparse, hworker, hedit before p after p' hps hr⟩

/-- **Every edit keeps the layout.** -/
theorem Mutation.edit_laidOut {m : Mutation} (hcr : CrBeforeNewline data)
    (hl : LaidOut data cfg.projects) (h : m.edit data cfg = .ok (some updated)) :
    ∃ cfg', Config.parse updated = .ok cfg' ∧ cfg'.validateWorker = .ok () ∧
      LaidOut updated cfg'.projects := by
  cases m with
  | createProject input =>
    obtain ⟨-, rfl, hparse, hworker⟩ := createProject_ok h
    refine ⟨_, hparse, hworker, ?_⟩
    have hcounts := @counts_block (marks data) [] [] (by simp) (.inl rfl)
    rw [List.append_nil] at hcounts
    rw [laidOut_iff, appendProject_marks hcr, hcounts, laidOut_iff.1 hl]
    simp [ProjectInput.project, counts, tally, Slice.elems]
  | updateProjectMetadata name input =>
    refine editProject_laidOut (fun before p after p' hps hr => ?_) h
    rw [hps] at hl
    exact hl.of_marks (metadataEdit_marks hr) (by rw [(metadataEdit_ok hr).2.2.1])
  | setApproval name mode =>
    obtain ⟨approval, happroval, h⟩ := bind_eq_ok.1 h
    refine editProject_laidOut (fun before p after p' hps hr => ?_) h
    rw [hps] at hl
    have hmarks := replaceApproval_marks hcr (newline_storedApproval happroval) (ite_map_ok hr).2.1
    exact hl.of_marks hmarks (by rw [(approvalEdit_ok hr).1])
  | addAllowlist name argv =>
    refine editProject_laidOut (fun before p after p' hps hr => ?_) h
    rw [hps] at hl
    obtain ⟨P, hlen, hmarks⟩ := insertAllowEntry_marks hcr (ite_map_ok hr).2.1
    refine hl.of_block P ?_ hmarks ?_
    · simpa using P.project_notMem_body
    · rw [List.length_append, hlen, (addEdit_ok hr).1]
      simp
  | removeAllowlist name argv =>
    refine editProject_laidOut (fun before p after p' hps hr => ?_) h
    rw [hps] at hl
    have hne := (ite_map_ok hr).1
    obtain ⟨P, ms, -, hmarks, hms, hlen⟩ := removeAllowEntries_marks hne (ite_map_ok hr).2.1
    refine hl.of_block P hms hmarks ?_
    have hcount := length_filter_add_removedIndices p.allow.elems argv
    rw [(removeEdit_ok hr).1]
    simp only [Slice.elems_ofAppend]
    omega

theorem removeProject_laidOut {name : Bytes} (hl : LaidOut data cfg.projects)
    (h : removeProject name data cfg = .ok updated) :
    ∃ cfg', Config.parse updated = .ok cfg' ∧ cfg'.validateWorker = .ok () ∧
      LaidOut updated cfg'.projects := by
  obtain ⟨before, p, after, hps, -, -, hspan, hwithout, hparse, hworker⟩ := removeProject_ok h
  refine ⟨_, hparse, hworker, ?_⟩
  rw [hps] at hl
  obtain ⟨P, hmarks⟩ := removeProjectSpan_marks hspan
  obtain ⟨hbefore, -, hafter⟩ := hl.split P
  rw [hwithout, laidOut_iff, hmarks, counts, tally_append _ P.opens_after, ← counts, hbefore,
    hafter, List.map_append]

end Edits

/-! ## Runs -/

section Runs

variable [Platform]

/-- The parser of policies takes a carriage return only before a newline. -/
def RejectsLoneCR : Prop :=
  ∀ data cfg, Platform.unmarshal data = .ok cfg → CrBeforeNewline data

/-- A policy that both the editor and the worker can use. -/
def Editable (data : Bytes) : Prop :=
  data.length ≤ maxPolicyBytes ∧ ∃ cfg, Config.parse data = .ok cfg ∧
    cfg.validateWorker = .ok () ∧ LaidOut data cfg.projects

theorem RejectsLoneCR.of_parse (hcr : RejectsLoneCR) {data : Bytes} {cfg : Config}
    (h : Config.parse data = .ok cfg) : CrBeforeNewline data := by
  obtain ⟨raw, hraw, -, -⟩ := Config.parse_eq_ok h
  exact hcr data raw hraw

section Steps

variable {e : Editor} {o : ℕ} {f : Inode} {d d' : Disk} {tr : Trace Call.Answer}

/-- A mutation with the flag set has installed an editable policy. -/
theorem exec_mutate_editable (hcr : RejectsLoneCR) {m : Mutation} {err : Option Bytes}
    (hv : Ready d.policy e.name o f) (h : Exec Disk.act d (e.mutate m) tr d' (true, err))
    (hf : Editable f.bytes) : Editable (contents d'.policy e.name) := by
  have hconf := @mutate_conforms_of _ e m
    (fun b c => ∃ cfg, e.interpret b = .ok cfg ∧ m.edit b cfg = .ok (some c) ∧
      c.length ≤ maxPolicyBytes) fun b c cfg hcfg hedit hsize => ⟨cfg, hcfg, hedit, hsize⟩
  obtain ⟨cfg, hcfg, hedit, hsize⟩ := (outcome Prod.fst Prod.snd hv hconf h).permits_of_changed
  obtain ⟨-, cfg', hparse', -, hl⟩ := hf
  obtain rfl : cfg' = cfg := Except.ok.inj (hparse'.symm.trans (interpret_ok hcfg).1)
  exact ⟨hsize, Mutation.edit_laidOut (hcr.of_parse hparse') hl hedit⟩

variable [Codec]

theorem exec_remove_editable {name confirmation recoveryID : Bytes}
    {x : RecoveryResult × Option Bytes} (hv : Ready d.policy e.name o f)
    (h : Exec Disk.act d (e.removeProject name confirmation recoveryID) tr d' x)
    (hchanged : x.1.changed = true) (hf : Editable f.bytes) :
    Editable (contents d'.policy e.name) := by
  have hconf := @remove_conforms_of _ _ e name confirmation recoveryID
    (fun b c => ∃ cfg, e.interpret b = .ok cfg ∧ removeProject name b cfg = .ok c ∧
      c.length ≤ maxPolicyBytes) fun b c cfg hcfg hedit hsize => ⟨cfg, hcfg, hedit, hsize⟩
  have hout := outcome (fun x => RecoveryResult.changed x.1) Prod.snd hv hconf h
  rw [hchanged] at hout
  obtain ⟨cfg, hcfg, hedit, hsize⟩ := hout.permits_of_changed
  obtain ⟨-, cfg', hparse', -, hl⟩ := hf
  obtain rfl : cfg' = cfg := Except.ok.inj (hparse'.symm.trans (interpret_ok hcfg).1)
  exact ⟨hsize, removeProject_laidOut hl hedit⟩

/-- The codec gives back the policy of an artifact. It is a field of bytes, so this needs nothing of
its contents. -/
def KeepsPolicy : Prop :=
  ∀ artifact text, Codec.marshal artifact = .ok text →
    ∀ decoded rest, Codec.decode text = .ok (decoded, rest) → decoded.policy = artifact.policy

theorem decode_of_judge {store : RecoveryStore} {link : FileInfo} {g : Inode} {recoveryID : Bytes}
    {artifact : RecoveryArtifact} (h : store.judge link g recoveryID = .ok artifact) :
    ∃ rest, Codec.decode g.bytes = .ok (artifact, rest) := by
  unfold RecoveryStore.judge at h
  split at h
  · simp at h
  split at h
  · simp at h
  split at h
  · simp at h
  split at h
  · simp at h
  next data hdata =>
  obtain rfl : g.bytes = data := by
    unfold readResult at hdata
    split at hdata
    · simp at hdata
    · split_ifs at hdata
      exact Except.ok.inj hdata
  unfold RecoveryStore.decodeArtifact at h
  split at h
  · simp at h
  · next decoded rest hdecode =>
    split at h
    · simp at h
    · simp at h
    · cases hv : validateRecoveryArtifact decoded recoveryID with
      | error err => simp [hv, Except.map] at h
      | ok u =>
        obtain rfl : decoded = artifact := by simpa [hv, Except.map] using h
        exact ⟨rest, hdecode⟩

end Steps

variable [Codec]

/-- The artifact that a session leaves behind, with its identifier. -/
def Session.published (s : Session) (d' : Disk) : List (Bytes × Bytes) :=
  match s.action with
  | .remove _ _ recoveryID =>
    (d'.recovery.file? recoveryID).toList.map fun g => (recoveryID, g.bytes)
  | _ => []

/-- A restoration finds one of these artifacts. -/
def Session.Finds (s : Session) (published : List (Bytes × Bytes)) (d : Disk) : Prop :=
  match s.action with
  | .restore recoveryID _ =>
    ∃ g, d.recovery.file? recoveryID = some g ∧ (recoveryID, g.bytes) ∈ published
  | _ => True

/-- The versions of a policy, the last one first, and the artifacts published, in a run of
successful mutations. Between two of them everything but the policy may change. -/
inductive Versions (target start : Bytes) : List Bytes → List (Bytes × Bytes) → Prop
  | start : Versions target start [start] []
  | step {b : Bytes} {versions : List Bytes} {published : List (Bytes × Bytes)} {s : Session}
    {o : ℕ} {f : Inode} {d d' : Disk} {tr : Trace Call.Answer} {err : Option Bytes}
    (h : Versions target start (b :: versions) published) (hname : s.editor.name = target)
    (hready : Ready d.policy target o f) (hb : contents d.policy target = b)
    (hfinds : s.Finds published d) (hexec : Exec Disk.act d s.program tr d' (true, err)) :
    Versions target start (contents d'.policy target :: b :: versions) (s.published d' ++ published)

/-- **One mutation of an editable policy**, in a run whose versions are editable and whose artifacts
hold versions of it. -/
theorem Session.step_editable (hcr : RejectsLoneCR) (hcodec : KeepsPolicy) {s : Session} {o : ℕ}
    {f : Inode} {d d' : Disk} {tr : Trace Call.Answer} {err : Option Bytes}
    {published : List (Bytes × Bytes)} (hv : Ready d.policy s.editor.name o f)
    (hf : Editable f.bytes)
    (hpublished : ∀ x ∈ published, ∃ artifact, Codec.marshal artifact = .ok x.2 ∧
      Editable artifact.policy)
    (hfinds : s.Finds published d) (h : Exec Disk.act d s.program tr d' (true, err)) :
    Editable (contents d'.policy s.editor.name) ∧ ∀ x ∈ s.published d', ∃ artifact,
      Codec.marshal artifact = .ok x.2 ∧ Editable artifact.policy := by
  obtain ⟨e, action⟩ := s
  cases action with
  | mutate m => exact ⟨exec_mutate_editable hcr hv h hf, by simp [Session.published]⟩
  | remove name confirmation recoveryID =>
    obtain ⟨tr₁, tr₂, d₁, x, rfl, h₁, h₂⟩ := exec_bind h
    obtain ⟨-, rfl, hx⟩ := exec_pure h₂
    have hchanged : x.1.changed = true := (congrArg Prod.fst hx).symm
    refine ⟨exec_remove_editable hv h₁ hchanged hf, ?_⟩
    -- the artifact holds the policy that was replaced
    obtain ⟨store, now, g, -, hpub⟩ := exec_removeProject hv h₁ hchanged
    intro y hy
    obtain ⟨g', hg', rfl⟩ : ∃ g', d'.recovery.file? recoveryID = some g' ∧
        (recoveryID, g'.bytes) = y := by
      simpa [Session.published] using hy
    obtain rfl := Option.some.inj (hpub.file.symm.trans hg')
    exact ⟨_, hpub.text, hf⟩
  | restore recoveryID confirmation =>
    obtain ⟨tr₁, tr₂, d₁, x, rfl, h₁, h₂⟩ := exec_bind h
    obtain ⟨-, rfl, hx⟩ := exec_pure h₂
    obtain ⟨store, g, artifact, cfg, -, hg, hjudge, -, -, hrestore⟩ :=
      exec_restoreProject hv h₁ (congrArg Prod.fst hx).symm
    refine ⟨?_, by simp [Session.published]⟩
    obtain ⟨g', hg', hmem⟩ := hfinds
    obtain rfl := Option.some.inj (hg.symm.trans hg')
    obtain ⟨original, htext, heditable⟩ := hpublished _ hmem
    obtain ⟨rest, hdecode⟩ := decode_of_judge hjudge
    rw [(restoreProject_ok hrestore).1, hcodec original _ htext artifact rest hdecode]
    exact heditable

end Runs

/-- A parser that takes no carriage return at all. -/
@[reducible] def demoStrictPlatform : Platform :=
  { demoPlatform with
    unmarshal := fun data =>
      if carriageReturn ∈ data then .error (str "invalid carriage return")
      else demoPlatform.unmarshal data }

/-- A codec that writes the policy only. -/
@[reducible] def demoPolicyCodec : Codec where
  marshal a := .ok a.policy
  decode text :=
    .ok (⟨1, demoRecoveryID, 0, str "db", hexDigest text, hexDigest demoRemoved, text⟩, [])
  trailer _ := .eof

end SecretsBroker.Admin
