import SecretsBroker.Admin.Edit
import SecretsBroker.Foundations.JsonStruct

/-!
# The forms of the administrator web page

The part of `internal/adminweb/controls.go` that computes without reading anything: what a posted
form must look like, the change it asks for (`reviewChange`) and the mutation that commits this
change (`PolicyChange.mutation`). The handlers that read the policy in between are in
`SecretsBroker.AdminWeb.Handlers`.
-/

namespace SecretsBroker.AdminWeb

open Admin

/-! ## What the editor shows of a project -/

/-- `displayApproval`: the mode and a text. -/
def displayApproval (approval : Bytes) : Bytes × Bytes :=
  if approval = Config.ApprovalNever then
    (ModeAutomatic, str "allowlisted commands run without confirmation")
  else if approval = Config.ApprovalAllowlistedPrompt then
    (ModeConfirm, str "allowlisted commands require confirmation")
  else if approval = Config.ApprovalPrompt then
    (str "prompt-unlisted", str "allowlisted commands run; unlisted commands may be confirmed")
  else if approval = Config.ApprovalAlways then
    (str "prompt-any", str "every command may be confirmed, including unlisted commands")
  else (approval, str "unknown")

structure ProjectSummary where
  projectAlias : Bytes
  mode : Bytes
  behavior : Bytes
  deriving DecidableEq

structure ProjectDetail where
  projectAlias : Bytes
  bwsProjectID : Bytes
  tokenEntry : Bytes
  workingDir : Bytes
  mode : Bytes
  behavior : Bytes
  allow : List (List Bytes)
  deriving DecidableEq

/-- `admin.ProjectDetail{}` -/
def ProjectDetail.zero : ProjectDetail := ⟨[], [], [], [], [], [], []⟩

def summaryOf (p : Project) : ProjectSummary :=
  ⟨p.projectAlias, (displayApproval p.approval).1, (displayApproval p.approval).2⟩

def detailOf (p : Project) : ProjectDetail :=
  ⟨p.projectAlias, p.bwsProjectID, p.tokenEntry, p.workingDir, (displayApproval p.approval).1,
    (displayApproval p.approval).2, p.allowArgv⟩

/-- `GetProject` on a policy that was read. -/
def getProject [Platform] (cfg : Config) (name : Bytes) : Except Bytes ProjectDetail := do
  let i ← findProject cfg name
  match cfg.projects[i]? with
  | none => throw (str "unknown project " ++ quote name)
  | some p => pure (detailOf p)

/-! ## Forms -/

/-- `url.Values`: the values of each name. -/
structure Form where
  fields : List (Bytes × List Bytes)
  nodup : (fields.map Prod.fst).Nodup

namespace Form

/-- `form[name]` -/
def values (form : Form) (name : Bytes) : List Bytes := (form.fields.lookup name).getD []

/-- `Get`: the first value, or the empty text. -/
def get (form : Form) (name : Bytes) : Bytes := (form.values name).headD []

end Form

/-- The names of the form fields. -/
def fieldCSRF : Bytes := str "csrf"
def fieldAlias : Bytes := str "alias"
def fieldArgv : Bytes := str "argv"

def validFields (form : Form) (names : List Bytes) : Bool :=
  form.fields.all fun field =>
    ([fieldCSRF, fieldAlias] ++ names).contains field.1 &&
      (field.1 == fieldArgv || field.2.length == 1)

def printable [Unicode] (value : Bytes) (limit : ℕ) (empty : Bool) : Bool :=
  !((!empty && value == []) || decide (limit < value.length) || decide (¬ Utf8.Valid value)) &&
    (Utf8.scan value).all fun x => Quote.isPrint x.toRune

def validInput [Unicode] (input : ProjectInput) : Bool :=
  printable input.projectAlias 256 false && printable input.bwsProjectID 128 false &&
    printable input.tokenEntry 256 false && printable input.workingDir 4096 false &&
    Path.isAbs input.workingDir

/-- `strconv.Atoi` -/
def atoi (s : Bytes) : Option ℤ :=
  let (negative, digits) :=
    match s with
    | c :: rest => if c = 0x2D then (true, rest) else if c = 0x2B then (false, rest) else (false, s)
    | [] => (false, s)
  if digits = [] ∨ ¬ digits.all (fun c => 0x30 ≤ c && c ≤ 0x39) then none
  else
    let n : ℤ := if negative then -(Json.digitsValue digits : ℤ) else Json.digitsValue digits
    if -2 ^ 63 ≤ n ∧ n < 2 ^ 63 then some n else none

/-! ## Changes -/

/-- The kinds of forms that change the policy. -/
inductive Kind
  | create
  | metadata
  | mode
  | add
  | remove
  deriving DecidableEq

structure PolicyChange where
  kind : Kind
  projectAlias : Bytes
  projectName : Bytes
  input : ProjectInput
  mode : Bytes
  argv : List Bytes
  widen : Bool
  deriving DecidableEq

def emptyInput : ProjectInput := ⟨[], [], [], []⟩

/-- The change that `review` starts from. -/
def PolicyChange.start (kind : Kind) (form : Form) : PolicyChange :=
  ⟨kind, form.get fieldAlias, [], emptyInput, [], [], false⟩

/-- The input of a `create` or `metadata` form. -/
def inputOf (form : Form) : ProjectInput :=
  ⟨form.get fieldAlias, form.get (str "project_id"), form.get (str "token_entry"),
    form.get (str "working_dir")⟩

variable [Platform]

/-- The first case of the switch of `review`, up to the reads of `create`. -/
def reviewInput (change : PolicyChange) (form : Form) (current : Option ProjectDetail) :
    Except Bytes PolicyChange :=
  if !validFields form [str "project_id", str "token_entry", str "working_dir"] then
    .error (str "Invalid project form.")
  else if !validInput (inputOf form) then
    .error
      (str "Complete every identifier and enter an absolute working directory. Use identifiers only; keep secret values in Bitwarden.")
  else .ok
    { change with
      input := inputOf form
      widen :=
        match current with
        | none => change.widen
        | some detail => (inputOf form).bwsProjectID != detail.bwsProjectID ||
            (inputOf form).tokenEntry != detail.tokenEntry ||
            (inputOf form).workingDir != detail.workingDir }

def reviewMode (change : PolicyChange) (form : Form) (current : Option ProjectDetail) :
    Except Bytes PolicyChange :=
  let mode := form.get (str "mode")
  if !validFields form [str "mode"] then .error (str "Invalid approval form.")
  else if mode ≠ ModeConfirm ∧ mode ≠ ModeAutomatic then
    .error (str "Choose confirm or automatic mode.")
  else .ok
    { change with
      mode := mode
      widen := mode == ModeAutomatic && current.map ProjectDetail.mode != some ModeAutomatic }

def reviewAdd (change : PolicyChange) (form : Form) : Except Bytes PolicyChange :=
  let argv := form.values fieldArgv
  if !validFields form [fieldArgv] || argv.length == 0 || decide (256 < argv.length) then
    .error (str "Enter an ordered argument list.")
  else if !(argv.zipIdx.all fun arg => printable arg.1 4096 (arg.2 != 0)) then
    .error (str "Arguments must be printable text and the first argument must be present.")
  else .ok { change with argv := argv, widen := true }

def reviewRemove (change : PolicyChange) (form : Form) (current : Option ProjectDetail) :
    Except Bytes PolicyChange :=
  let allow := (current.map ProjectDetail.allow).getD []
  if !validFields form [str "entry"] then .error (str "Invalid argument removal form.")
  else
    match (atoi (form.get (str "entry"))).bind fun index =>
      if index < 0 then none else allow[index.toNat]? with
    | none => .error (str "Choose an existing argument list.")
    | some argv => .ok { change with argv := argv }

/-- The switch of `review` over the kind of the form: the change, or what is wrong with the form.
There is no current project for `create`. -/
def reviewChange (kind : Kind) (form : Form) (current : Option ProjectDetail) :
    Except Bytes PolicyChange :=
  let change := PolicyChange.start kind form
  match kind with
  | .create | .metadata => reviewInput change form current
  | .mode => reviewMode change form current
  | .add => reviewAdd change form
  | .remove => reviewRemove change form current

/-- What every change keeps of its form. -/
theorem reviewChange_fields {kind : Kind} {form : Form} {current : Option ProjectDetail}
    {change : PolicyChange} (h : reviewChange kind form current = .ok change) :
    change.kind = kind ∧ change.projectAlias = form.get fieldAlias ∧
      (kind = .create ∨ kind = .metadata → change.input = inputOf form) := by
  cases kind with
  | create | metadata =>
    simp only [reviewChange, reviewInput] at h
    split_ifs at h
    obtain rfl := Except.ok.inj h
    exact ⟨rfl, rfl, fun _ => rfl⟩
  | mode =>
    simp only [reviewChange, reviewMode] at h
    split_ifs at h
    obtain rfl := Except.ok.inj h
    exact ⟨rfl, rfl, by simp⟩
  | add =>
    simp only [reviewChange, reviewAdd] at h
    split_ifs at h
    obtain rfl := Except.ok.inj h
    exact ⟨rfl, rfl, by simp⟩
  | remove =>
    simp only [reviewChange, reviewRemove] at h
    split_ifs at h
    split at h
    · simp at h
    · obtain rfl := Except.ok.inj h
      exact ⟨rfl, rfl, by simp⟩

omit [Platform] in
/-- `metadataChange`: the fields that differ from the current ones, or else the directory. -/
def metadataChange (current : ProjectDetail) (input : ProjectInput) : ProjectMetadataUpdate :=
  let update : ProjectMetadataUpdate :=
    ⟨if input.bwsProjectID ≠ current.bwsProjectID then some input.bwsProjectID else none,
      if input.tokenEntry ≠ current.tokenEntry then some input.tokenEntry else none,
      if input.workingDir ≠ current.workingDir then some input.workingDir else none⟩
  if update.bwsProjectID = none ∧ update.tokenEntry = none ∧ update.workingDir = none then
    { update with workingDir := some input.workingDir }
  else update

omit [Platform] in
/-- The switch of `commit`: the call of the editor. The current project is read for `metadata`
only. -/
def PolicyChange.mutation (change : PolicyChange) (current : ProjectDetail) : Mutation :=
  match change.kind with
  | .create => .createProject change.input
  | .metadata => .updateProjectMetadata change.projectAlias (metadataChange current change.input)
  | .mode => .setApproval change.projectAlias change.mode
  | .add => .addAllowlist change.projectAlias change.argv
  | .remove => .removeAllowlist change.projectAlias change.argv

end SecretsBroker.AdminWeb
