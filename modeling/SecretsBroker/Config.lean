import Mathlib.Data.Int.Notation
import SecretsBroker.Foundations.Fallible
import SecretsBroker.Foundations.Path
import SecretsBroker.Foundations.Quote

/-!
# The policy file: its data, defaults and validation

The types of `internal/config`, with `Parse`, `ValidateWorker` and `Project`. The TOML decoder and
the URL parser are outside the repository; they are the parameters `unmarshal` and `parseURL` of
`Platform`, of which nothing is assumed beyond being functions.

What later proofs use of a parsed configuration is collected in `Config.Accepted`
(`Config.accepted_of_parse`): it has a project, the aliases are non-empty and pairwise distinct, the
approval mode of each project is one of the four modes and no allowlist entry is empty.
-/

namespace SecretsBroker

open Fallible

/-- A slice that may be nil. A nil slice and an empty one have the same elements, but
`reflect.DeepEqual` tells them apart. -/
abbrev Slice (α : Type) := Option (List α)

/-- The elements of a slice. -/
def Slice.elems {α : Type} (s : Slice α) : List α := s.getD []

/-- `append` of some elements to a nil slice: nil when there are none. -/
def Slice.ofAppend {α : Type} : List α → Slice α
  | [] => none
  | a :: l => some (a :: l)

@[simp] theorem Slice.elems_ofAppend {α : Type} (l : List α) : (Slice.ofAppend l).elems = l := by
  cases l <;> rfl

namespace Config

def ApprovalAlways : Bytes := str "always"
def ApprovalPrompt : Bytes := str "prompt"
def ApprovalAllowlistedPrompt : Bytes := str "allowlisted-prompt"
def ApprovalNever : Bytes := str "never"

def BackendSecretService : Bytes := str "secret-service"
def BackendEnv : Bytes := str "env"
def BackendFile : Bytes := str "file"

def ApprovalBackendKDialog : Bytes := str "kdialog"
def ApprovalBackendTailscaleRelay : Bytes := str "tailscale-relay"

def defaultRelayPollIntervalSeconds : ℤ := 2
def defaultRelayTimeoutSeconds : ℤ := 300

end Config

structure Runtime where
  bwsBinary : Bytes
  commandPath : Bytes
  home : Bytes
  deriving DecidableEq

structure TokenSource where
  backend : Bytes
  /-- `token_source.env.var` -/
  envVar : Bytes
  /-- `token_source.file.path` -/
  filePath : Bytes
  deriving DecidableEq

structure TailscaleRelaySource where
  controlURL : Bytes
  pollIntervalSeconds : ℤ
  timeoutSeconds : ℤ
  deriving DecidableEq

structure ApprovalSource where
  backend : Bytes
  tailscaleRelay : TailscaleRelaySource
  deriving DecidableEq

structure AllowEntry where
  argv : List Bytes
  deriving DecidableEq

structure Project where
  projectAlias : Bytes
  bwsProjectID : Bytes
  tokenEntry : Bytes
  workingDir : Bytes
  approval : Bytes
  allow : Slice AllowEntry
  deriving DecidableEq

structure Config where
  runtime : Runtime
  tokenSource : TokenSource
  approvalSource : ApprovalSource
  projects : List Project
  deriving DecidableEq

/-- The parts of a parsed URL that the validation looks at. -/
structure URL where
  scheme : Bytes
  host : Bytes
  hasUser : Bool
  path : Bytes
  rawQuery : Bytes
  fragment : Bytes

/-- The code outside the repository: the TOML decoder, with the text of its error, and the URL
parser. -/
class Platform extends Unicode where
  unmarshal : Bytes → Except Bytes Config
  parseURL : Bytes → Option URL

/-- `AllowArgv`: the allowlist of a project as plain argument vectors. -/
def Project.allowArgv (p : Project) : List (List Bytes) := p.allow.elems.map AllowEntry.argv

namespace Config

variable [Platform]

def applyDefaults (c : Config) : Config :=
  let projects := c.projects.map fun p =>
    if p.approval = [] then { p with approval := ApprovalNever } else p
  let backend :=
    if c.approvalSource.backend = [] then ApprovalBackendKDialog else c.approvalSource.backend
  let relay := c.approvalSource.tailscaleRelay
  let relay :=
    if backend = ApprovalBackendTailscaleRelay then
      { relay with
        pollIntervalSeconds :=
          if relay.pollIntervalSeconds = 0 then defaultRelayPollIntervalSeconds
          else relay.pollIntervalSeconds
        timeoutSeconds :=
          if relay.timeoutSeconds = 0 then defaultRelayTimeoutSeconds else relay.timeoutSeconds }
    else relay
  { c with projects := projects, approvalSource := ⟨backend, relay⟩ }

/-- The switch of `validate` over `token_source.backend`. -/
def validateTokenSource (t : TokenSource) : Except Bytes Unit :=
  if t.backend = BackendSecretService then pure ()
  else if t.backend = BackendEnv then
    if t.envVar = [] then
      throw (str "token_source.env.var is required when backend is \"env\"")
    else pure ()
  else if t.backend = BackendFile then
    if t.filePath = [] then
      throw (str "token_source.file.path is required when backend is \"file\"")
    else pure ()
  else throw (str "token_source.backend " ++ quote t.backend ++
    str " is not supported (must be one of " ++ quote BackendSecretService ++ str ", " ++
    quote BackendEnv ++ str ", " ++ quote BackendFile ++ str ")")

/-- An http origin with no credentials, path, query or fragment. -/
def isOrigin (text : Bytes) : Bool :=
  match Platform.parseURL text with
  | none => false
  | some u => u.scheme == str "http" && u.host != [] && !u.hasUser && u.path == [] &&
      u.rawQuery == [] && u.fragment == []

/-- The switch of `validate` over `approval_source.backend`. -/
def validateApprovalSource (a : ApprovalSource) : Except Bytes Unit :=
  if a.backend = ApprovalBackendKDialog then pure ()
  else if a.backend = ApprovalBackendTailscaleRelay then
    let relay := a.tailscaleRelay
    if relay.controlURL = [] then
      throw
        (str "approval_source.tailscale_relay.control_url is required when backend is \"tailscale-relay\"")
    else if !isOrigin relay.controlURL then
      throw
        (str "approval_source.tailscale_relay.control_url must be an http origin with no credentials, path, query, or fragment")
    else if relay.pollIntervalSeconds ≤ 0 then
      throw (str "approval_source.tailscale_relay.poll_interval_seconds must be greater than zero")
    else if relay.timeoutSeconds ≤ 0 then
      throw (str "approval_source.tailscale_relay.timeout_seconds must be greater than zero")
    else if relay.pollIntervalSeconds ≥ relay.timeoutSeconds then
      throw
        (str "approval_source.tailscale_relay.poll_interval_seconds must be less than timeout_seconds")
    else pure ()
  else throw (str "approval_source.backend " ++ quote a.backend ++
    str " is not supported (must be one of " ++ quote ApprovalBackendKDialog ++ str ", " ++
    quote ApprovalBackendTailscaleRelay ++ str ")")

/-- The approval modes that `validate` accepts. -/
def approvalModes : List Bytes :=
  [ApprovalAlways, ApprovalPrompt, ApprovalAllowlistedPrompt, ApprovalNever]

/-- The text that names the project an error is about. -/
def projectError (p : Project) (text : Bytes) : Bytes :=
  str "project " ++ quote p.projectAlias ++ str ": " ++ text

/-- One iteration of the loop of `validate` over the projects, after the aliases `seen`. -/
def validateProject (seen : List Bytes) (p : Project) : Except Bytes Unit :=
  if p.projectAlias = [] then throw (str "a project is missing alias")
  else if p.projectAlias ∈ seen then
    throw (str "duplicate project alias " ++ quote p.projectAlias)
  else if p.bwsProjectID = [] then throw (projectError p (str "bws_project_id is required"))
  else if p.tokenEntry = [] then throw (projectError p (str "token_entry is required"))
  else if p.approval ∉ approvalModes then
    throw (projectError p (str "approval " ++ quote p.approval ++ str " must be one of " ++
      quote ApprovalAlways ++ str ", " ++ quote ApprovalPrompt ++ str ", " ++
      quote ApprovalAllowlistedPrompt ++ str ", " ++ quote ApprovalNever))
  else if p.allow.elems.any (fun entry => entry.argv.isEmpty) then
    throw (projectError p (str "an allow entry has an empty argv"))
  else pure ()

/-- The loop of `validate` over the projects. -/
def validateProjects (seen : List Bytes) : List Project → Except Bytes Unit
  | [] => pure ()
  | p :: ps => do
    validateProject seen p
    validateProjects (p.projectAlias :: seen) ps

def validate (c : Config) : Except Bytes Unit := do
  validateTokenSource c.tokenSource
  validateApprovalSource c.approvalSource
  if c.projects = [] then throw (str "no projects defined")
  validateProjects [] c.projects

/-- `Parse`: decode, apply the defaults and validate. -/
def parse (data : Bytes) : Except Bytes Config :=
  match Platform.unmarshal data with
  | .error e => .error (str "parsing config: " ++ e)
  | .ok raw =>
    match validate (applyDefaults raw) with
    | .error e => .error (str "invalid config: " ++ e)
    | .ok () => .ok (applyDefaults raw)

/-- `ValidateWorker`: what the credential-bearing worker requires on top of `Parse`. -/
def validateWorker (c : Config) : Except Bytes Unit := do
  if c.tokenSource.backend ≠ BackendFile then
    throw (str "worker requires token_source.backend " ++ quote BackendFile)
  if !Path.isAbs c.tokenSource.filePath then
    throw (str "token_source.file.path must be an absolute path")
  if c.approvalSource.backend ≠ ApprovalBackendTailscaleRelay then
    throw (str "worker requires approval_source.backend " ++ quote ApprovalBackendTailscaleRelay)
  if !Path.isAbs c.runtime.bwsBinary then
    throw (str "runtime.bws_binary must be an absolute path")
  if !Path.isAbs c.runtime.home then
    throw (str "runtime.home must be an absolute path")
  if c.runtime.commandPath = [] then
    throw (str "runtime.command_path is required")
  match (c.runtime.commandPath.splitOn 0x3A).find? (fun dir => !Path.isAbs dir) with
  | some dir =>
    throw (str "runtime.command_path entry " ++ quote dir ++ str " must be absolute")
  | none =>
    match c.projects.find? (fun p => !Path.isAbs p.workingDir) with
    | some p => throw (projectError p (str "working_dir must be an absolute path"))
    | none => pure ()

/-- `Project`: the first project with this alias. -/
def project (c : Config) (name : Bytes) : Option Project :=
  c.projects.find? fun p => p.projectAlias == name

/-! ## What a parsed configuration satisfies -/

/-- What `validate` establishes about a single project. -/
structure ProjectAccepted (p : Project) : Prop where
  alias_ne : p.projectAlias ≠ []
  bwsProjectID_ne : p.bwsProjectID ≠ []
  tokenEntry_ne : p.tokenEntry ≠ []
  approval_mem : p.approval ∈ approvalModes
  argv_ne : ∀ entry ∈ p.allow.elems, entry.argv ≠ []

/-- What `validate` establishes about the projects of a configuration. -/
structure Accepted (c : Config) : Prop where
  projects_ne : c.projects ≠ []
  nodup : (c.projects.map Project.projectAlias).Nodup
  project : ∀ p ∈ c.projects, ProjectAccepted p

theorem validateProject_ok_iff {seen : List Bytes} {p : Project} :
    validateProject seen p = .ok () ↔ p.projectAlias ∉ seen ∧ ProjectAccepted p := by
  constructor
  · intro h
    unfold validateProject at h
    split_ifs at h with h₁ h₂ h₃ h₄ h₅ h₆
    refine ⟨h₂, h₁, h₃, h₄, h₅, fun entry hentry he => h₆ ?_⟩
    exact List.any_eq_true.2 ⟨entry, hentry, by simp [he]⟩
  · rintro ⟨hseen, h⟩
    have hargv : ¬ p.allow.elems.any (fun entry => entry.argv.isEmpty) = true := by
      intro hany
      obtain ⟨entry, hentry, he⟩ := List.any_eq_true.1 hany
      exact h.argv_ne entry hentry (by simpa using he)
    rw [validateProject, if_neg h.alias_ne, if_neg hseen, if_neg h.bwsProjectID_ne,
      if_neg h.tokenEntry_ne, if_neg (not_not.2 h.approval_mem), if_neg hargv]
    rfl

theorem validateProjects_ok_iff {seen : List Bytes} {ps : List Project} :
    validateProjects seen ps = .ok () ↔
      (ps.map Project.projectAlias).Nodup ∧ (∀ p ∈ ps, p.projectAlias ∉ seen) ∧
        ∀ p ∈ ps, ProjectAccepted p := by
  refine seen_eq_ok_iff (fun _ => rfl) fun seen p ps => ?_
  rw [← validateProject_ok_iff, validateProjects]
  cases validateProject seen p <;> simp [bind, Except.bind]

theorem validate_ok_iff {c : Config} : validate c = .ok () ↔
    validateTokenSource c.tokenSource = .ok () ∧ validateApprovalSource c.approvalSource = .ok () ∧
      Accepted c := by
  have hprojects : (validateProjects [] c.projects = .ok () ∧ c.projects ≠ []) ↔ Accepted c := by
    rw [validateProjects_ok_iff]
    exact ⟨fun h => ⟨h.2, h.1.1, h.1.2.2⟩, fun h => ⟨⟨h.nodup, by simp, h.project⟩, h.projects_ne⟩⟩
  rw [validate, ← hprojects]
  cases validateTokenSource c.tokenSource with
  | error e => simp [bind, Except.bind]
  | ok u =>
    cases validateApprovalSource c.approvalSource with
    | error e => simp [bind, Except.bind]
    | ok u =>
      by_cases hp : c.projects = []
      · simp [hp, bind, Except.bind, throw, throwThe, MonadExceptOf.throw]
      · simp [hp, bind, Except.bind]

theorem accepted_of_validate {c : Config} (h : validate c = .ok ()) : Accepted c :=
  (validate_ok_iff.1 h).2.2

/-- Of the projects, `ValidateWorker` looks at the working directories. -/
theorem validateWorker_projects {c : Config} (h : validateWorker c = .ok ()) (ps : List Project) :
    validateWorker { c with projects := ps } = .ok () ↔
      ∀ p ∈ ps, Path.isAbs p.workingDir = true := by
  unfold validateWorker at h ⊢
  simp only [throw_if_eq_ok] at h ⊢
  obtain ⟨h₁, h₂, h₃, h₄, h₅, h₆, h⟩ := h
  simp only [h₁, h₂, h₃, h₄, h₅, h₆, not_false_eq_true, true_and]
  split at h
  · cases h
  · have hfind : ps.find? (fun p => !Path.isAbs p.workingDir) = none ↔
        ∀ p ∈ ps, Path.isAbs p.workingDir = true := by
      simp
    rw [← hfind]
    cases ps.find? (fun p => !Path.isAbs p.workingDir) with
    | none => simp [pure, Except.pure]
    | some p => simp [throw, throwThe, MonadExceptOf.throw]

/-- `Parse` is `unmarshal`, the defaults and `validate`, in this order. -/
theorem parse_eq_ok {data : Bytes} {c : Config} (h : parse data = .ok c) :
    ∃ raw, Platform.unmarshal data = .ok raw ∧ c = applyDefaults raw ∧ validate c = .ok () := by
  unfold parse at h
  split at h
  · simp at h
  · next raw hraw =>
    split at h
    · simp at h
    · next hval =>
      obtain rfl := Except.ok.inj h
      exact ⟨raw, hraw, rfl, hval⟩

/-- **Every configuration that `Parse` returns is accepted.** -/
theorem accepted_of_parse {data : Bytes} {c : Config} (h : parse data = .ok c) : Accepted c := by
  obtain ⟨raw, -, -, hval⟩ := parse_eq_ok h
  exact accepted_of_validate hval

omit [Platform] in
theorem project_mem {c : Config} {name : Bytes} {p : Project} (h : c.project name = some p) :
    p ∈ c.projects := List.mem_of_find?_eq_some h

omit [Platform] in
theorem project_alias {c : Config} {name : Bytes} {p : Project} (h : c.project name = some p) :
    p.projectAlias = name := by
  simpa using List.find?_some h

end Config

end SecretsBroker
