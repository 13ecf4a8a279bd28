import SecretsBroker.Admin.Editor

/-!
# Recovery artifacts

`RecoveryStore` of `internal/admin/recovery.go`, and the two mutators of the editor that use it. The
JSON text of an artifact is produced and read by `encoding/json`; it is the parameter `Codec`. The
clock is a number of nanoseconds since 1970.
-/

namespace SecretsBroker.Admin

open Files Interaction

/-- What follows the first JSON value of a text. -/
inductive Trailer
  | eof
  | value
  | invalid (text : Bytes)

/-- The JSON codec of an artifact: `json.Marshal`, a strict `Decode` with the rest of the text, and
what a second `Decode` finds there. -/
class Codec where
  marshal : RecoveryArtifact → Except Bytes Bytes
  decode : Bytes → Except Bytes (RecoveryArtifact × Bytes)
  trailer : Bytes → Trailer

def recoveryArtifactVersion : ℤ := 1
def maxRecoveryArtifactBytes : ℕ := 2 * 2 ^ 20

/-- `time.Time{}` in nanoseconds since 1970. -/
def zeroTime : ℤ := -62135596800000000000

structure RecoveryResult where
  changed : Bool
  recoveryID : Bytes
  deriving DecidableEq

structure RecoveryArtifactInput where
  recoveryID : Bytes
  project : Bytes
  before : Bytes
  after : Bytes

def validateRecoveryID (recoveryID : Bytes) : Except Bytes Unit :=
  if recoveryID.length = 32 ∧ recoveryID.all isLowerHex then .ok ()
  else .error (str "recovery ID must be 32 lowercase hexadecimal characters")

def validateDigest (value label : Bytes) : Except Bytes Unit :=
  if value.length ≠ 64 then
    .error (str "recovery artifact " ++ label ++ str " digest is invalid")
  else if value.all isLowerHex then .ok ()
  else .error (str "recovery artifact " ++ label ++ str " digest is invalid")

def validateExpectedIdentity (info : FileInfo) (expectedOwner expectedGroup : UInt32) :
    Except Bytes Unit :=
  if info.uid ≠ expectedOwner then
    .error (str "must be owned by uid " ++ itoa expectedOwner.toNat ++ str ", got " ++
      itoa info.uid.toNat)
  else if info.gid ≠ expectedGroup then
    .error (str "must use gid " ++ itoa expectedGroup.toNat ++ str ", got " ++ itoa info.gid.toNat)
  else .ok ()

def validateRecoveryArtifact (artifact : RecoveryArtifact) (recoveryID : Bytes) :
    Except Bytes Unit :=
  if artifact.version ≠ recoveryArtifactVersion then
    .error (str "unsupported recovery artifact version " ++ itoaInt artifact.version)
  else if artifact.recoveryID ≠ recoveryID then
    .error (str "recovery artifact ID does not match its filename")
  else if artifact.project = [] then .error (str "recovery artifact project alias is empty")
  else if artifact.createdAt = zeroTime then
    .error (str "recovery artifact creation time is empty")
  else do
    validateDigest artifact.beforeSHA256 (str "pre-removal")
    validateDigest artifact.afterSHA256 (str "post-removal")
    if hexDigest artifact.policy ≠ artifact.beforeSHA256 then
      .error (str "recovery artifact pre-removal digest does not match stored policy")
    else .ok ()

variable [Platform]

namespace RecoveryStore

/-- The checks of `validateRecoveryDir` on the answer of `lstat`. -/
def checkDir (s : RecoveryStore) (info : FileInfo) : Except Bytes Unit :=
  if info.kind ≠ .directory then .error (str "recovery path must be a non-symlink directory")
  else if info.perm ≠ 0o700 then
    .error (str "recovery directory must have mode 0700, got " ++ octalText info.perm)
  else if info.special then .error (str "recovery directory must not have special permission bits")
  else
    match validateExpectedIdentity info s.expectedOwner s.expectedGroup with
    | .error e => .error (str "recovery directory: " ++ e)
    | .ok () => .ok ()

def validateRecoveryDir (s : RecoveryStore) : Program (Except Bytes Unit) := do
  match ← onFile .recovery .lstatDir with
  | .error e => pure (.error (str "stating recovery directory: " ++ e))
  | .ok info => pure (s.checkDir info)

/-- The checks of `validateRecoveryFile` on the answer of `lstat`. -/
def checkArtifactFile (s : RecoveryStore) (info : FileInfo) : Except Bytes Unit :=
  if info.kind ≠ .regular then
    .error (str "recovery artifact must be a regular, non-symlink file")
  else if info.perm ≠ 0o600 then
    .error (str "recovery artifact must have mode 0600, got " ++ octalText info.perm)
  else if info.special then .error (str "recovery artifact must not have special permission bits")
  else
    match validateExpectedIdentity info s.expectedOwner s.expectedGroup with
    | .error e => .error (str "recovery artifact: " ++ e)
    | .ok () =>
      if info.size > maxRecoveryArtifactBytes then
        .error (str "recovery artifact exceeds maximum size of " ++ itoa maxRecoveryArtifactBytes ++
          str " bytes")
      else .ok ()

def validateRecoveryFile (s : RecoveryStore) (name : Bytes) : Program (Except Bytes Unit) := do
  match ← onFile .recovery (.lstat name) with
  | .error e => pure (.error (str "stating recovery artifact: " ++ e))
  | .ok info => pure (s.checkArtifactFile info)

/-- `syncDirectory` -/
def syncDirectory : Program (Option Bytes) := do
  match ← onFile .recovery .openDir with
  | some err => pure (some err)
  | none =>
    let synced ← onFile .recovery .syncDir
    let _ ← onFile .recovery .closeDir
    pure synced

/-- `writeAll` -/
def writeAll (fd : ℕ) (data : Bytes) : Program (Option Bytes) := do
  match ← onFile .recovery (.write fd data) with
  | (_, some err) => pure (some err)
  | (written, none) => pure (if written ≠ data.length then some (str "short write") else none)

/-- The temporary artifact from its creation to its `Sync`. -/
def fillArtifact (s : RecoveryStore) (temp : ℕ) (tempName encoded : Bytes) :
    Program (Option Bytes) := do
  match ← onFile .recovery (.chmod temp 0o600) with
  | some err => pure (some (str "setting recovery artifact permissions: " ++ err))
  | none =>
    match ← s.validateRecoveryFile tempName with
    | .error err => pure (some (str "validating temporary recovery artifact: " ++ err))
    | .ok () =>
      match ← writeAll temp encoded with
      | some err => pure (some (str "writing recovery artifact: " ++ err))
      | none =>
        match ← onFile .recovery (.sync temp) with
        | some err => pure (some (str "syncing recovery artifact: " ++ err))
        | none => pure none

/-- Give up with an error after removing some names, in this order. -/
def failRemoving (err : Bytes) : List Bytes → Program (Option Bytes)
  | [] => pure (some err)
  | name :: names => do
    let _ ← onFile .recovery (.remove name)
    failRemoving err names

/-- `Publish` with the temporary artifact closed. -/
def linkArtifact (tempName recoveryID : Bytes) : Program (Option Bytes) := do
  match ← onFile .recovery (.link tempName recoveryID) with
  | some .exists =>
    failRemoving (str "recovery artifact " ++ quote recoveryID ++ str " already exists") [tempName]
  | some (.other err) => failRemoving (str "publishing recovery artifact: " ++ err) [tempName]
  | none =>
    match ← onFile .recovery (.remove tempName) with
    | some err =>
      failRemoving (str "removing temporary recovery artifact: " ++ err) [recoveryID, tempName]
    | none =>
      match ← syncDirectory with
      | none => pure none
      | some err =>
        -- removed at once, and once more by the deferred rollback
        let _ ← onFile .recovery (.remove recoveryID)
        let _ ← syncDirectory
        failRemoving (str "syncing recovery directory: " ++ err) [recoveryID]

/-- The artifact that `Publish` writes at a time. -/
def artifactOf (input : RecoveryArtifactInput) (now : ℕ) : RecoveryArtifact where
  version := recoveryArtifactVersion
  recoveryID := input.recoveryID
  createdAt := now
  project := input.project
  beforeSHA256 := hexDigest input.before
  afterSHA256 := hexDigest input.after
  policy := input.before

/-- `Publish` with the text of the artifact. -/
def publishEncoded (s : RecoveryStore) (recoveryID encoded : Bytes) : Program (Option Bytes) := do
  if encoded.length > maxRecoveryArtifactBytes then
    pure (some (str "recovery artifact exceeds maximum size of " ++ itoa maxRecoveryArtifactBytes ++
      str " bytes"))
  else
    match ← onFile .recovery (.createTemp (str ".recovery.tmp-")) with
    | .error err => pure (some (str "creating temporary recovery artifact: " ++ err))
    | .ok (temp, tempName) =>
      match ← s.fillArtifact temp tempName encoded with
      | some err =>
        let _ ← onFile .recovery (.close temp)
        failRemoving err [tempName]
      | none =>
        match ← onFile .recovery (.close temp) with
        | some err => failRemoving (str "closing recovery artifact: " ++ err) [tempName]
        | none => linkArtifact tempName recoveryID

variable [Codec]

def publish (s : RecoveryStore) (input : RecoveryArtifactInput) : Program (Option Bytes) := do
  match validateRecoveryID input.recoveryID with
  | .error err => pure (some err)
  | .ok () =>
    if input.project = [] then pure (some (str "recovery project alias is required"))
    else
      match ← s.validateRecoveryDir with
      | .error err => pure (some err)
      | .ok () =>
        let now ← Prog.ask Call.now
        match Codec.marshal (artifactOf input now) with
        | .error err => pure (some (str "encoding recovery artifact: " ++ err))
        | .ok encoded => s.publishEncoded input.recoveryID encoded

/-- `Read` on the contents of the file. -/
def decodeArtifact (data recoveryID : Bytes) : Except Bytes RecoveryArtifact :=
  match Codec.decode data with
  | .error err => .error (str "decoding recovery artifact: " ++ err)
  | .ok (artifact, rest) =>
    match Codec.trailer rest with
    | .value => .error (str "recovery artifact contains trailing JSON data")
    | .invalid err => .error (str "decoding recovery artifact trailer: " ++ err)
    | .eof => (validateRecoveryArtifact artifact recoveryID).map fun _ => artifact

/-- `Read` -/
def readArtifact (s : RecoveryStore) (recoveryID : Bytes) :
    Program (Except Bytes RecoveryArtifact) := do
  match validateRecoveryID recoveryID with
  | .error err => pure (.error err)
  | .ok () =>
    match ← s.validateRecoveryDir with
    | .error err => pure (.error err)
    | .ok () =>
      match ← s.validateRecoveryFile recoveryID with
      | .error err => pure (.error err)
      | .ok () =>
        match ← secureRead .recovery (s.dir ++ Path.separator :: recoveryID) recoveryID
          maxRecoveryArtifactBytes 0o077 false s.euid with
        | .error err => pure (.error (str "reading recovery artifact: " ++ err))
        | .ok data => pure (decodeArtifact data recoveryID)

end RecoveryStore

namespace Editor

variable [Codec]

def errNoRecovery : Bytes := str "project recovery is not configured"
def errNoConfirmation : Bytes := str "project confirmation is required"

/-- The checks of `RemoveProject` before the policy is read. -/
def checkRemoval (name confirmation recoveryID : Bytes) : Except Bytes Unit :=
  if confirmation = [] then .error errNoConfirmation
  else if confirmation ≠ name then
    .error (str "project confirmation must exactly match the selected alias")
  else validateRecoveryID recoveryID

/-- `RemoveProject` -/
def removeProject (e : Editor) (name confirmation recoveryID : Bytes) :
    Program (RecoveryResult × Option Bytes) := do
  match e.recovery with
  | none => pure (⟨false, []⟩, some errNoRecovery)
  | some store =>
    match checkRemoval name confirmation recoveryID with
    | .error err => pure (⟨false, []⟩, some err)
    | .ok () =>
      match ← e.readPolicy with
      | .error err => pure (⟨false, []⟩, some err)
      | .ok (data, cfg, stamp) =>
        match Admin.removeProject name data cfg with
        | .error err => pure (⟨false, []⟩, some err)
        | .ok updated =>
          match ← store.publish ⟨recoveryID, name, data, updated⟩ with
          | some err =>
            pure (⟨false, []⟩, some (str "publishing project recovery artifact: " ++ err))
          | none =>
            match ← e.writeAtomic updated stamp with
            | some err => pure (⟨false, recoveryID⟩, some err)
            | none => pure (⟨true, recoveryID⟩, none)

/-- `RestoreProject` with the artifact. -/
def restoreFrom (e : Editor) (artifact : RecoveryArtifact) (recoveryID confirmation : Bytes) :
    Program (RecoveryResult × Option Bytes) := do
  if confirmation ≠ artifact.project then
    pure (⟨false, recoveryID⟩,
      some (str "project confirmation must exactly match the recovery artifact alias"))
  else
    match ← e.readPolicy with
    | .error err => pure (⟨false, recoveryID⟩, some err)
    | .ok (data, cfg, stamp) =>
      match Admin.restoreProject artifact data cfg with
      | .error err => pure (⟨false, recoveryID⟩, some err)
      | .ok updated =>
        match ← e.writeAtomic updated stamp with
        | some err => pure (⟨false, recoveryID⟩, some err)
        | none => pure (⟨true, recoveryID⟩, none)

/-- `RestoreProject` -/
def restoreProject (e : Editor) (recoveryID confirmation : Bytes) :
    Program (RecoveryResult × Option Bytes) := do
  match e.recovery with
  | none => pure (⟨false, []⟩, some errNoRecovery)
  | some store =>
    if confirmation = [] then pure (⟨false, []⟩, some errNoConfirmation)
    else
      match ← store.readArtifact recoveryID with
      | .error err => pure (⟨false, []⟩, some err)
      | .ok artifact => e.restoreFrom artifact recoveryID confirmation

end Editor

end SecretsBroker.Admin
