import SecretsBroker.Admin.Edit
import SecretsBroker.Foundations.Files
import SecretsBroker.Foundations.Interaction

/-!
# The policy editor

`Editor` of `internal/admin/policy.go` with the part of `internal/securefile` it uses, as programs
over the calls they make. A policy directory and a recovery directory are two volumes; paths appear
in the texts of errors only. Deferred calls are written where they happen; the result of a deferred
call is dropped, as in the source, and a second `Close` of a file makes no call. The test hook
`beforeWrite` is left out.
-/

namespace SecretsBroker.Admin

open Files Interaction

inductive Dir
  | policy
  | recovery
  deriving DecidableEq

structure MutationStart where
  actorUID : ℤ
  project : Bytes
  operation : Bytes
  approvalMode : Bytes
  argv : List Bytes
  recoveryID : Bytes
  fields : List Bytes

/-- The calls of the administration programs. -/
inductive Call
  | file (d : Dir) (op : FileOp)
  | now
  | newRecoveryID
  | auditStart (record : MutationStart)
  | auditFinish (mutationID outcome : Bytes)

abbrev Call.Answer : Call → Type
  | .file _ op => op.Answer
  | .now => ℕ
  | .newRecoveryID => Except Bytes Bytes
  | .auditStart _ => Except Bytes Bytes
  | .auditFinish _ _ => Option Bytes

abbrev Program := Prog Call Call.Answer

/-- A call on one of the two directories. -/
def onFile (d : Dir) (op : FileOp) : Program op.Answer := Prog.ask (Call.file d op)

/-- The text of `FileMode.Perm()` under `%v`. -/
def permText (perm : UInt32) : Bytes :=
  0x2D :: (List.range 9).map fun i =>
    if perm &&& (1 <<< UInt32.ofNat (8 - i)) ≠ 0 then (str "rwxrwxrwx").getD i 0 else 0x2D

/-- The text of a mode under `%04o`. -/
def octalText (perm : UInt32) : Bytes :=
  let digits := (Nat.toDigits 8 perm.toNat).flatMap Utf8.encodeRune
  List.replicate (4 - digits.length) 0x30 ++ digits

variable [Platform]

/-! ## `securefile` -/

/-- `validateOwner` -/
def validateOwner (path : Bytes) (info : FileInfo) (allowRoot : Bool) (euid : UInt32) :
    Except Bytes Unit :=
  if info.uid = euid ∨ (allowRoot ∧ info.uid = 0) then .ok ()
  else .error (quote path ++ str " must be owned by uid " ++ itoa euid.toNat ++
    (if allowRoot then str " or root" else []) ++ str ", got " ++ itoa info.uid.toNat)

/-- The checks of `ValidateTrustedDir` on the answer of `stat`. -/
def checkTrustedDir (path : Bytes) (info : FileInfo) (euid : UInt32) : Except Bytes Unit :=
  if info.kind ≠ .directory then .error (quote path ++ str " is not a directory")
  else if info.perm &&& 0o022 ≠ 0 then
    .error (str "directory " ++ quote path ++ str " is writable by group or other (" ++
      permText info.perm ++ str ")")
  else validateOwner path info true euid

def validateTrustedDir (d : Dir) (path : Bytes) (euid : UInt32) : Program (Except Bytes Unit) := do
  match ← onFile d .statDir with
  | .error e => pure (.error (str "stating directory " ++ quote path ++ str ": " ++ e))
  | .ok info => pure (checkTrustedDir path info euid)

/-- The checks of `validate` on the answer of `fstat`. -/
def checkFile (path : Bytes) (info : FileInfo) (forbidden : UInt32) (allowRoot : Bool)
    (euid : UInt32) : Except Bytes Unit :=
  if info.kind ≠ .regular then .error (quote path ++ str " is not a regular file")
  else if info.perm &&& forbidden ≠ 0 then
    .error (quote path ++ str " permissions are too open (" ++ permText info.perm ++ str ")")
  else validateOwner path info allowRoot euid

/-- `Read` on the open file, up to its deferred `Close`. -/
def readOpen (d : Dir) (path : Bytes) (fd maxBytes : ℕ) (forbidden : UInt32) (allowRoot : Bool)
    (euid : UInt32) : Program (Except Bytes Bytes) := do
  match ← onFile d (.fstat fd) with
  | .error e => pure (.error (str "stating " ++ quote path ++ str ": " ++ e))
  | .ok info =>
    match checkFile path info forbidden allowRoot euid with
    | .error e => pure (.error e)
    | .ok () =>
      match ← onFile d (.readAll fd (maxBytes + 1)) with
      | .error e => pure (.error (str "reading " ++ quote path ++ str ": " ++ e))
      | .ok data =>
        if data.length > maxBytes then
          pure (.error (quote path ++ str " exceeds " ++ itoa maxBytes ++ str " bytes"))
        else pure (.ok data)

/-- `securefile.Read` -/
def secureRead (d : Dir) (path name : Bytes) (maxBytes : ℕ) (forbidden : UInt32)
    (allowRoot : Bool) (euid : UInt32) : Program (Except Bytes Bytes) := do
  match ← onFile d (.openRead name) with
  | .error e => pure (.error (str "opening " ++ quote path ++ str ": " ++ e))
  | .ok fd =>
    let result ← readOpen d path fd maxBytes forbidden allowRoot euid
    let _ ← onFile d (.close fd)
    pure result

/-! ## The editor -/

/-- `RecoveryStore`, with the functions that `NewRecoveryStore` gives it. -/
structure RecoveryStore where
  dir : Bytes
  expectedOwner : UInt32
  expectedGroup : UInt32
  /-- `os.Geteuid()` -/
  euid : UInt32

structure Editor where
  path : Bytes
  /-- `filepath.Dir(path)` -/
  dir : Bytes
  /-- The last element of `path`. -/
  name : Bytes
  expectedOwner : UInt32
  recovery : Option RecoveryStore
  expectedRevision : Bytes
  /-- `os.Geteuid()` -/
  euid : UInt32

def maxPolicyBytes : ℕ := 2 ^ 20

def errPolicyChanged : Bytes := str "policy changed; reload before submitting"
def errPolicyBusy : Bytes := str "another administrator is updating policy"

/-- `sameFile` -/
def sameFile (a b : Stamp) : Bool :=
  a.dev == b.dev && a.ino == b.ino && a.uid == b.uid && a.gid == b.gid && a.mode == b.mode &&
    a.size == b.size && a.modified == b.modified

namespace Editor

/-- The checks of `metadata` on the answer of `lstat`. -/
def checkMetadata (e : Editor) (info : FileInfo) : Except Bytes Stamp :=
  if info.kind ≠ .regular then .error (str "policy must be a regular, non-symlink file")
  else if info.perm &&& 0o022 ≠ 0 then
    .error (str "policy permissions are too open (" ++ permText info.perm ++ str ")")
  else if info.uid ≠ e.expectedOwner then
    .error (str "policy must be owned by uid " ++ itoa e.expectedOwner.toNat ++ str ", got " ++
      itoa info.uid.toNat)
  else .ok info.stamp

def metadata (e : Editor) : Program (Except Bytes Stamp) := do
  match ← onFile .policy (.lstat e.name) with
  | .error err => pure (.error (str "stating policy: " ++ err))
  | .ok info => pure (e.checkMetadata info)

/-- The end of `readPolicy`: the revision and the meaning of the bytes. -/
def interpret (e : Editor) (data : Bytes) : Except Bytes Config :=
  if e.expectedRevision ≠ [] ∧ hexDigest data ≠ e.expectedRevision then .error errPolicyChanged
  else
    match Config.parse data with
    | .error err => .error err
    | .ok cfg =>
      match cfg.validateWorker with
      | .error err => .error (str "invalid worker policy: " ++ err)
      | .ok () => .ok cfg

def readPolicy (e : Editor) : Program (Except Bytes (Bytes × Config × Stamp)) := do
  match ← validateTrustedDir .policy e.dir e.euid with
  | .error err => pure (.error (str "validating policy directory: " ++ err))
  | .ok () =>
    match ← e.metadata with
    | .error err => pure (.error err)
    | .ok before =>
      match ← secureRead .policy e.path e.name maxPolicyBytes 0o022 true e.euid with
      | .error err => pure (.error (str "reading policy: " ++ err))
      | .ok data =>
        match ← e.metadata with
        | .error err => pure (.error err)
        | .ok after =>
          if !sameFile before after then
            pure (.error (str "policy changed while it was being read"))
          else
            match e.interpret data with
            | .error err => pure (.error err)
            | .ok cfg => pure (.ok (data, cfg, after))

/-- `lockPolicy`: the descriptor that holds the lock. -/
def lockPolicy (e : Editor) : Program (Except Bytes ℕ) := do
  let nonblocking : Bool := e.expectedRevision ≠ []
  match ← onFile .policy (.openRead e.name) with
  | .error err => pure (.error (str "opening policy for mutation lock: " ++ err))
  | .ok fd =>
    match ← onFile .policy (.flock fd nonblocking) with
    | none => pure (.ok fd)
    | some err =>
      let _ ← onFile .policy (.close fd)
      match err with
      | .wouldBlock =>
        if nonblocking then pure (.error errPolicyBusy)
        else pure (.error (str "locking policy for mutation: resource temporarily unavailable"))
      | .other text => pure (.error (str "locking policy for mutation: " ++ text))

/-- A `metadata` that must still be the original one; `message` is the error if it is not. -/
def requireSame (e : Editor) (original : Stamp) (message : Bytes) : Program (Option Bytes) := do
  match ← e.metadata with
  | .error err => pure (some err)
  | .ok current => pure (if sameFile original current then none else some message)

/-- The `Chown` of the temporary file, where its owner is not the original one. -/
def preserveOwner (temp : ℕ) (info : FileInfo) (original : Stamp) : Program (Option Bytes) :=
  if info.uid ≠ original.uid ∨ info.gid ≠ original.gid then
    onFile .policy (.chown temp original.uid original.gid)
  else pure none

/-- The temporary file from its creation to its `Sync`. -/
def fillTemp (temp : ℕ) (data : Bytes) (original : Stamp) : Program (Option Bytes) := do
  match ← onFile .policy (.fstat temp) with
  | .error err => pure (some (str "stating temporary policy: " ++ err))
  | .ok info =>
    match ← preserveOwner temp info original with
    | some err => pure (some (str "preserving policy ownership: " ++ err))
    | none =>
      match ← onFile .policy (.chmod temp original.mode) with
      | some err => pure (some (str "preserving policy permissions: " ++ err))
      | none =>
        match ← onFile .policy (.write temp data) with
        | (_, some err) => pure (some (str "writing temporary policy: " ++ err))
        | (_, none) =>
          match ← onFile .policy (.sync temp) with
          | some err => pure (some (str "syncing temporary policy: " ++ err))
          | none => pure none

/-- The end of `writeAtomic`, after the rename. -/
def syncParent : Program (Option Bytes) := do
  match ← onFile .policy .openDir with
  | some err => pure (some (str "opening policy directory for sync: " ++ err))
  | none =>
    let synced ← onFile .policy .syncDir
    let _ ← onFile .policy .closeDir
    pure (synced.map fun err => str "syncing policy directory: " ++ err)

/-- Give up the temporary file, which is closed, with an error. -/
def discardTemp (tempName err : Bytes) : Program (Option Bytes) := do
  let _ ← onFile .policy (.remove tempName)
  pure (some err)

/-- `writeAtomic` with the temporary file closed. -/
def install (e : Editor) (tempName : Bytes) (original : Stamp) : Program (Option Bytes) := do
  match ← e.requireSame original (str "policy changed before atomic replacement") with
  | some err => discardTemp tempName err
  | none =>
    match ← onFile .policy (.rename tempName e.name) with
    | some err => discardTemp tempName (str "replacing policy: " ++ err)
    | none => syncParent

/-- `writeAtomic` with the lock held. -/
def replaceLocked (e : Editor) (data : Bytes) (original : Stamp) : Program (Option Bytes) := do
  match ← e.requireSame original (str "policy changed before it could be replaced") with
  | some err => pure (some err)
  | none =>
    match ← onFile .policy (.createTemp (str ".policy.toml.tmp-")) with
    | .error err => pure (some (str "creating temporary policy: " ++ err))
    | .ok (temp, tempName) =>
      match ← fillTemp temp data original with
      | some err =>
        let _ ← onFile .policy (.close temp)
        discardTemp tempName err
      | none =>
        match ← onFile .policy (.close temp) with
        | some err => discardTemp tempName (str "closing temporary policy: " ++ err)
        | none => e.install tempName original

def writeAtomic (e : Editor) (data : Bytes) (original : Stamp) : Program (Option Bytes) := do
  if data.length > maxPolicyBytes then
    pure (some (str "updated policy exceeds maximum size of " ++ itoa maxPolicyBytes ++
      str " bytes"))
  else
    match ← e.lockPolicy with
    | .error err => pure (some err)
    | .ok lock =>
      let result ← e.replaceLocked data original
      let _ ← onFile .policy (.close lock)
      pure result

/-- The five mutators that return a flag and an error. -/
def mutate (e : Editor) (m : Mutation) : Program (Bool × Option Bytes) := do
  match m.check with
  | .error err => pure (false, some err)
  | .ok () =>
    match ← e.readPolicy with
    | .error err => pure (false, some err)
    | .ok (data, cfg, stamp) =>
      match m.edit data cfg with
      | .error err => pure (false, some err)
      | .ok none => pure (false, none)
      | .ok (some updated) =>
        match ← e.writeAtomic updated stamp with
        | some err => pure (false, some err)
        | none => pure (true, none)

end Editor

end SecretsBroker.Admin
