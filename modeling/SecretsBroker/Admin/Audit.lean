import SecretsBroker.Admin.Recovery

/-!
# The audited editor

`AuditedEditor` of `internal/admin/audit.go`: every mutation stands between a start record and a
finish record, whose outcome says what became of it. `mutate` and `mutateRecovery` of the source
differ in the type of the result only; they are instances of `audited`.
-/

namespace SecretsBroker.Admin

open Interaction

def MutationCreateProject : Bytes := str "create_project"
def MutationUpdateProjectMetadata : Bytes := str "update_project_metadata"
def MutationSetApproval : Bytes := str "set_approval"
def MutationAddAllowlist : Bytes := str "add_allowlist"
def MutationRemoveAllowlist : Bytes := str "remove_allowlist"
def MutationRemoveProject : Bytes := str "remove_project"
def MutationRestoreProject : Bytes := str "restore_project"

def MutationChanged : Bytes := str "changed"
def MutationNoChange : Bytes := str "no_change"
def MutationFailed : Bytes := str "failed"

/-- The outcome of the finish record. -/
def outcomeOf (changed : Bool) (updateErr : Option Bytes) : Bytes :=
  if updateErr.isSome then MutationFailed
  else if changed then MutationChanged
  else MutationNoChange

/-- `errors.Join` of an update error, if there is one, and a finish error. -/
def joinErrors (updateErr : Option Bytes) (finishErr : Bytes) : Bytes :=
  match updateErr with
  | none => finishErr
  | some err => err ++ 0x0A :: finishErr

/-- An update between its two audit records. `zero` is returned if there is no start record. -/
def audited {β : Type} (zero : β) (changedOf : β → Bool) (start : MutationStart)
    (update : Program (β × Option Bytes)) : Program (β × Option Bytes) := do
  match ← Prog.ask (Call.auditStart start) with
  | .error err => pure (zero, some (str "starting administrator audit: " ++ err))
  | .ok mutationID =>
    let (result, updateErr) ← update
    match ← Prog.ask (Call.auditFinish mutationID (outcomeOf (changedOf result) updateErr)) with
    | none => pure (result, updateErr)
    | some err =>
      let finishErr :=
        if changedOf result then
          str "policy changed but administrator audit completion failed: " ++ err
        else str "finishing administrator audit: " ++ err
      pure (result, some (joinErrors updateErr finishErr))

structure AuditedEditor where
  editor : Editor
  actorUID : ℤ

/-- The fields that an update names, for the start record. -/
def ProjectMetadataUpdate.fields (input : ProjectMetadataUpdate) : List Bytes :=
  (input.bwsProjectID.map fun _ => str "bws_project_id").toList ++
    (input.tokenEntry.map fun _ => str "token_entry").toList ++
    (input.workingDir.map fun _ => str "working_dir").toList

/-- The start record of a mutation. -/
def AuditedEditor.startOf (e : AuditedEditor) : Mutation → MutationStart
  | .createProject input =>
    ⟨e.actorUID, input.projectAlias, MutationCreateProject, ModeConfirm, [], [], []⟩
  | .updateProjectMetadata name input =>
    ⟨e.actorUID, name, MutationUpdateProjectMetadata, [], [], [], input.fields⟩
  | .setApproval name mode => ⟨e.actorUID, name, MutationSetApproval, mode, [], [], []⟩
  | .addAllowlist name argv => ⟨e.actorUID, name, MutationAddAllowlist, [], argv, [], []⟩
  | .removeAllowlist name argv => ⟨e.actorUID, name, MutationRemoveAllowlist, [], argv, [], []⟩

variable [Platform]

namespace AuditedEditor

/-- `CreateProject`, `UpdateProjectMetadata`, `SetApproval`, `AddAllowlist` and
`RemoveAllowlist`. -/
def mutate (e : AuditedEditor) (m : Mutation) : Program (Bool × Option Bytes) :=
  audited false id (e.startOf m) (e.editor.mutate m)

variable [Codec]

def removeProject (e : AuditedEditor) (name confirmation : Bytes) :
    Program (RecoveryResult × Option Bytes) := do
  match ← Prog.ask Call.newRecoveryID with
  | .error err => pure (⟨false, []⟩, some (str "generating recovery ID: " ++ err))
  | .ok recoveryID =>
    audited ⟨false, []⟩ RecoveryResult.changed
      ⟨e.actorUID, name, MutationRemoveProject, [], [], recoveryID, []⟩
      (e.editor.removeProject name confirmation recoveryID)

def restoreProject (e : AuditedEditor) (recoveryID confirmation : Bytes) :
    Program (RecoveryResult × Option Bytes) :=
  audited ⟨false, []⟩ RecoveryResult.changed
    ⟨e.actorUID, confirmation, MutationRestoreProject, [], [], recoveryID, []⟩
    (e.editor.restoreProject recoveryID confirmation)

end AuditedEditor

end SecretsBroker.Admin
