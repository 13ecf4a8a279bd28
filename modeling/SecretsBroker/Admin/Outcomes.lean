import SecretsBroker.Admin.Restoration

/-!
# Edits change the verdicts they name

A finished run of a mutation, seen through the broker's decision function.
`edits_change_what_they_name` says that a run with the flag set has left a policy in which every
other alias is decided as before and the selected one as the mutation says, and that a run without
the flag and without an error has left the file alone. For a removal and a restoration the recovery
artifact connects the two: the one publishes the policy that it replaces, the other installs what it
finds published.
-/

namespace SecretsBroker.Admin

open Files Interaction Replacement

variable [Platform]

/-- The alias that an action is about. -/
def Action.target : Action → Bytes
  | .mutate m => m.target
  | .remove name _ _ => name
  | .restore _ confirmation => confirmation

variable [Codec]

/-- What a session is meant to do, given the disks and the policies before and after it. -/
def Session.Effect (s : Session) (d d' : Disk) (cfg cfg' : Config) : Prop :=
  match s.action with
  | .mutate m => m.Effect cfg cfg'
  | .remove name _ recoveryID => cfg'.project name = none ∧
      ∃ store now g, s.editor.recovery = some store ∧
        store.Published ⟨recoveryID, name, contents d.policy s.editor.name,
          contents d'.policy s.editor.name⟩ now g d'.recovery
  | .restore recoveryID confirmation => (∃ p, cfg'.project confirmation = some p) ∧
      ∃ store g artifact, s.editor.recovery = some store ∧
        d.recovery.file? recoveryID = some g ∧
        store.judge d.recovery.dirLink g recoveryID = .ok artifact ∧
        artifact.project = confirmation ∧ contents d'.policy s.editor.name = artifact.policy ∧
        -- from the artifact of a removal, the policy before that removal
        ∀ name before after now,
          store.Published ⟨recoveryID, name, before, after⟩ now g d.recovery →
          store.euid = store.expectedOwner →
          RecoveryStore.RoundTrips
            (RecoveryStore.artifactOf ⟨recoveryID, name, before, after⟩ now) →
          name = confirmation ∧ contents d'.policy s.editor.name = before

/-! ## Reading an artifact that is not there -/

theorem readArtifact_missing {I : Disk → Prop} {P v : Volume} (s : RecoveryStore)
    {recoveryID : Bytes} (hf : v.file? recoveryID = none) (hid : I ⟨P, v⟩) :
    Meets Disk.act (Faultless False) I (s.readArtifact recoveryID) ⟨P, v⟩ fun r _ =>
      ∃ err, r = .error err := by
  unfold RecoveryStore.readArtifact
  split
  · exact meets_pure hid ⟨_, rfl⟩
  refine meets_bind (RecoveryStore.validateRecoveryDir_meets s hid) fun r d' _ hpost => ?_
  obtain ⟨hd', -⟩ := hpost
  subst d'
  cases r with
  | error err => exact meets_pure hid ⟨_, rfl⟩
  | ok u =>
    have hfile : Meets Disk.act (Faultless False) I (s.validateRecoveryFile recoveryID) ⟨P, v⟩
        fun r d' => d' = ⟨P, v⟩ ∧ ∃ err, r = .error err := by
      refine meets_step (by simp) (by simp) hid fun ch r v' hs => ?_
      obtain ⟨rfl, rfl⟩ : Except.error ch.text = r ∧ v = v' := by
        simpa [Volume.step, Disk.volume, hf] using hs
      exact meets_pure hid ⟨rfl, _, rfl⟩
    refine meets_bind hfile fun r d' hid' h => ?_
    obtain ⟨-, err, rfl⟩ := h
    exact meets_pure hid' ⟨_, rfl⟩

/-- A finished run of `Read` that gives an artifact has found it on the disk. -/
theorem exec_readArtifact {s : RecoveryStore} {recoveryID : Bytes} {d d' : Disk}
    {tr : Trace Call.Answer} {artifact : RecoveryArtifact}
    (h : Exec Disk.act d (s.readArtifact recoveryID) tr d' (.ok artifact)) :
    d'.policy = d.policy ∧ ∃ g, d.recovery.file? recoveryID = some g ∧
      s.judge d.recovery.dirLink g recoveryID = .ok artifact := by
  obtain ⟨P, v⟩ := d
  cases hf : v.file? recoveryID with
  | none =>
    have hend := (readArtifact_missing (I := fun _ => True) s hf trivial).execTo
      (fun _ => False.elim) h
    obtain ⟨-, err, herr⟩ := hend
    simp at herr
  | some g =>
    have hmeets := @RecoveryStore.readArtifact_meets _ _ False (fun _ => True) P v s recoveryID g hf
      fun _ _ => trivial
    have hend := hmeets.execTo (fun _ => False.elim) h
    obtain ⟨-, ⟨v', -, rfl⟩, hyield⟩ := hend
    rcases hyield with hr | ⟨-, err, herr⟩
    · exact ⟨rfl, g, rfl, hr.symm⟩
    · simp at herr

/-! ## The three kinds of sessions -/

section Kinds

variable {e : Editor} {o : ℕ} {f : Inode} {d d' : Disk} {tr : Trace Call.Answer}

/-- A removal with the flag set has published the policy that it replaces. -/
theorem exec_removeProject {name confirmation recoveryID : Bytes}
    {x : RecoveryResult × Option Bytes} (hv : Ready d.policy e.name o f)
    (h : Exec Disk.act d (e.removeProject name confirmation recoveryID) tr d' x)
    (hchanged : x.1.changed = true) :
    ∃ store now g, e.recovery = some store ∧
      store.Published ⟨recoveryID, name, f.bytes, contents d'.policy e.name⟩ now g d'.recovery := by
  have hout := outcome (fun x => RecoveryResult.changed x.1) Prod.snd hv
    (remove_conforms e name confirmation recoveryID) h
  rw [hchanged] at hout
  have hne := hout.permits_of_changed.ne
  cases hs : e.recovery with
  | none =>
    unfold Editor.removeProject at h
    rw [hs] at h
    obtain ⟨-, -, rfl⟩ := exec_pure h
    simp at hchanged
  | some store =>
    have hend := ((removeProject_meets hs hv.file? confirmation).execTo (fun _ => False.elim) h).inv
    rcases hend with hsame | ⟨updated, now, g, hremoved⟩
    · exact absurd (by simp [contents, hsame]) hne
    · obtain ⟨f', hf', hcopy⟩ := hremoved.policy
      have hcontents : contents d'.policy e.name = updated := by simp [contents, hf', hcopy.bytes]
      exact ⟨store, now, g, rfl, hcontents ▸ hremoved.artifact⟩

/-- A restoration with the flag set has installed the policy of the artifact on the disk. -/
theorem exec_restoreProject {recoveryID confirmation : Bytes} {x : RecoveryResult × Option Bytes}
    (hv : Ready d.policy e.name o f)
    (h : Exec Disk.act d (e.restoreProject recoveryID confirmation) tr d' x)
    (hchanged : x.1.changed = true) :
    ∃ store g artifact cfg, e.recovery = some store ∧ d.recovery.file? recoveryID = some g ∧
      store.judge d.recovery.dirLink g recoveryID = .ok artifact ∧
      e.interpret f.bytes = .ok cfg ∧ artifact.project = confirmation ∧
      restoreProject artifact f.bytes cfg = .ok (contents d'.policy e.name) := by
  unfold Editor.restoreProject at h
  cases hs : e.recovery with
  | none =>
    rw [hs] at h
    obtain ⟨-, -, rfl⟩ := exec_pure h
    simp at hchanged
  | some store =>
    rw [hs] at h
    change Exec _ _ (if confirmation = [] then _ else _) _ _ _ at h
    split at h
    · obtain ⟨-, -, rfl⟩ := exec_pure h
      simp at hchanged
    obtain ⟨tr₁, tr₂, d₁, res, rfl, h₁, h₂⟩ := exec_bind h
    cases res with
    | error err =>
      obtain ⟨-, -, rfl⟩ := exec_pure h₂
      simp at hchanged
    | ok artifact =>
      obtain ⟨hpolicy, g, hg, hjudge⟩ := exec_readArtifact h₁
      have hv₁ : Ready d₁.policy e.name o f := by rwa [hpolicy]
      have hconf := @restoreFrom_conforms _ e artifact recoveryID confirmation
        (fun b c => ∃ cfg, e.interpret b = .ok cfg ∧ artifact.project = confirmation ∧
          restoreProject artifact b cfg = .ok c)
        fun b c cfg hcfg hp hr => ⟨cfg, hcfg, hp, hr⟩
      have hout := outcome (fun x => RecoveryResult.changed x.1) Prod.snd hv₁ hconf h₂
      rw [hchanged] at hout
      obtain ⟨cfg, hcfg, hproject, hrestore⟩ := hout.permits_of_changed
      exact ⟨store, g, artifact, cfg, rfl, hg, hjudge, hcfg, hproject, hrestore⟩

end Kinds

def demoRemoveSession : Session :=
  ⟨demoRecoveryEditor, .remove (str "db") (str "db") demoRecoveryID⟩

end SecretsBroker.Admin
