import Mathlib.Data.List.Infix
import SecretsBroker.Worker.Diagnose

/-!
# The access diagnostic

The worker's command `access-check` asks the BWS client about the configured projects, one by one
or a single one, and prints a result as JSON (`Server.checkAccess`, `accessCheck`); the
administrator's side runs the command, decodes its output strictly and validates it
(`WorkerAccessChecker.checkAccess`).

The two sides do not share one notion of an identifier. The policy's validation only asks that the
alias and the id of a project are not empty, while `Result.validate` also wants every rune to be
printable, and JSON carries only valid UTF-8. `access_agrees_iff` says that this is the only
difference: what the worker reports comes back unchanged exactly when the reported identifiers are
printable and valid UTF-8 (`Identifier`). The failing case is reachable: a policy may spell an alias
with an escape for a control character.
-/

namespace SecretsBroker

namespace AccessDiag

open Utf8

/-! ## `internal/accessdiag` -/

def Version : Int64 := 1

def StatusAccessible : Bytes := str "accessible"
def StatusInaccessible : Bytes := str "inaccessible"
def StatusAuthenticationError : Bytes := str "authentication_error"
def StatusNetworkError : Bytes := str "network_error"
def StatusAPIError : Bytes := str "api_error"
def StatusUnknownError : Bytes := str "unknown_error"

/-- The values of `Status`. -/
def statuses : List Bytes :=
  [StatusAccessible, StatusInaccessible, StatusAuthenticationError, StatusNetworkError,
    StatusAPIError, StatusUnknownError]

def OutcomeAllAccessible : Bytes := str "all_accessible"
def OutcomeInaccessible : Bytes := str "inaccessible"
def OutcomeAuthenticationError : Bytes := str "authentication_error"
def OutcomeNetworkError : Bytes := str "network_error"
def OutcomeAPIError : Bytes := str "api_error"
def OutcomeUnknownError : Bytes := str "unknown_error"

/-- The values of `Outcome`. -/
def outcomes : List Bytes :=
  [OutcomeAllAccessible, OutcomeInaccessible, OutcomeAuthenticationError, OutcomeNetworkError,
    OutcomeAPIError, OutcomeUnknownError]

structure ProjectResult where
  projectAlias : Bytes
  bwsProjectID : Bytes
  status : Bytes
  deriving DecidableEq

structure Result where
  version : Int64
  outcome : Bytes
  projects : List ProjectResult
  deriving DecidableEq

/-- The loop of `Aggregate`, from the worst outcome so far. -/
def aggregateFrom (worst : Bytes) : List ProjectResult → Bytes
  | [] => worst
  | p :: ps =>
    if p.status = StatusAuthenticationError then OutcomeAuthenticationError
    else if p.status = StatusNetworkError then
      aggregateFrom (if worst ≠ OutcomeAuthenticationError then OutcomeNetworkError else worst) ps
    else if p.status = StatusAPIError then
      aggregateFrom (if worst ≠ OutcomeNetworkError then OutcomeAPIError else worst) ps
    else if p.status = StatusUnknownError then
      aggregateFrom (if worst ≠ OutcomeNetworkError ∧ worst ≠ OutcomeAPIError then
        OutcomeUnknownError else worst) ps
    else if p.status = StatusInaccessible then
      aggregateFrom (if worst = OutcomeAllAccessible then OutcomeInaccessible else worst) ps
    else aggregateFrom worst ps

def aggregate (projects : List ProjectResult) : Bytes := aggregateFrom OutcomeAllAccessible projects

def safeIdentifier [Unicode] (value : Bytes) : Bool :=
  value != [] && (scan value).all fun x => Quote.isPrint x.toRune

/-- The loop of `Validate` over the projects. -/
def validateProjects [Unicode] (seen : List Bytes) : List ProjectResult → Except Bytes Unit
  | [] => .ok ()
  | p :: ps =>
    if !safeIdentifier p.projectAlias || !safeIdentifier p.bwsProjectID then
      .error (str "result contains an invalid project identifier")
    else if p.projectAlias ∈ seen then
      .error (str "result contains duplicate alias " ++ quote p.projectAlias)
    else if p.status ∉ statuses then
      .error (str "result contains invalid status " ++ quote p.status)
    else validateProjects (p.projectAlias :: seen) ps

def Result.validate [Unicode] (r : Result) : Except Bytes Unit :=
  if r.version ≠ Version then
    .error (str "unsupported result version " ++ itoaInt r.version.toInt)
  else if r.projects = [] then .error (str "result contains no projects")
  else
    match validateProjects [] r.projects with
    | .error err => .error err
    | .ok () =>
      if r.outcome ≠ aggregate r.projects then
        .error (str "result outcome " ++ quote r.outcome ++ str " does not match aggregate " ++
          quote (aggregate r.projects))
      else .ok ()

/-! ### JSON -/

def ProjectResult.zero : ProjectResult := ⟨[], [], []⟩

def Result.zero : Result := ⟨0, [], []⟩

def projectFields : List (Json.Field ProjectResult) :=
  [.of (str "alias") ProjectResult.projectAlias (fun p v => { p with projectAlias := v }) .string,
    .of (str "bws_project_id") ProjectResult.bwsProjectID
      (fun p v => { p with bwsProjectID := v }) .string,
    .of (str "status") ProjectResult.status (fun p v => { p with status := v }) .string]

/-- The fields of a result. A nil list of projects is written by no one, and read as an empty one,
which `Validate` refuses alike. -/
def resultFields : List (Json.Field Result) :=
  [.of (str "version") Result.version (fun r v => { r with version := v }) .int,
    .of (str "outcome") Result.outcome (fun r v => { r with outcome := v }) .string,
    .of (str "projects") (fun r => some r.projects) (fun r v => { r with projects := v.getD [] })
      ((Json.Kind.struct true projectFields).slice .zero)]

/-- `json.NewEncoder(out).Encode(result)` -/
def Result.encode (r : Result) : Bytes := Json.encodeStruct resultFields r ++ [0x0A]

end AccessDiag

/-! ## The worker's side -/

open AccessDiag Utf8

/-- `accessStderrLimit` -/
def accessStderrLimit : ℕ := 64 <<< 10

/-- The lower case of a rune, as far as ASCII texts are looked for: apart from the capital letters,
two runes have a lower case in ASCII, the dotted capital I and the Kelvin sign. -/
def lowerRune (c : Char) : Char :=
  if c.toNat = 0x130 then 'i' else if c.toNat = 0x212A then 'k' else c.toLower

/-- The pattern `\[(4[0-9]{2}|5[0-9]{2}) [^\]]+\]` at the start of a text. -/
def isHTTPStatus : List Char → Bool
  | '[' :: a :: b :: c :: ' ' :: d :: rest =>
    (a == '4' || a == '5') && b.isDigit && c.isDigit && d != ']' && rest.contains ']'
  | _ => false

/-- `httpStatusPattern.MatchString` -/
def httpStatusPattern (text : List Char) : Bool := text.tails.any isHTTPStatus

/-- The texts of `hasNetworkError`. -/
def networkErrors : List String :=
  ["dns error", "failed to lookup address", "name or service not known",
    "temporary failure in name resolution", "connection refused", "connection reset",
    "connection timed out", "request timed out", "operation timed out", "deadline has elapsed",
    "error sending request", "tcp connect error", "connect error", "tls error",
    "certificate verify failed", "invalid peer certificate", "transport error"]

def classifyAccess (exitCode : ℤ) (stderr : Bytes) : Bytes :=
  let text := (scan stderr).map Symbol.toRune
  let contains (pattern : String) : Bool := decide (pattern.toList <:+: text.map lowerRune)
  if exitCode = 0 then StatusAccessible
  else if contains "[401 unauthorized]" || contains "[403 forbidden]" then
    StatusAuthenticationError
  else if contains "[404 not found]" then StatusInaccessible
  else if httpStatusPattern text then StatusAPIError
  else if contains "authentication failed" || contains "invalid access token" ||
      contains "missing access token" then StatusAuthenticationError
  else if networkErrors.any contains then StatusNetworkError
  else StatusUnknownError

theorem classifyAccess_mem (exitCode : ℤ) (stderr : Bytes) :
    classifyAccess exitCode stderr ∈ statuses := by
  simp only [classifyAccess]
  split_ifs <;> simp [statuses]

/-- `selectAccessProjects` -/
def selectAccessProjects (projects : List Project) (name : Bytes) : Except Bytes (List Project) :=
  if name = [] then .ok projects
  else
    match projects.find? fun p => p.projectAlias == name with
    | some p => .ok [p]
    | none => .error (str "unknown project alias")

namespace Server

/-- `probeAccess`, as the call number `n`. -/
def probeAccess (s : Server) (n : ℕ) (runtime : Runtime) (token projectID : Bytes) :
    Except Bytes Bytes :=
  let child := s.run n (bwsCommand runtime token
    [str "project", str "get", projectID, str "--output", str "none", str "--color", str "no"])
  let stderr := capture accessStderrLimit child.stderr
  if stderr.exceeded then .error (str "bws diagnostic error output exceeded limit")
  else if s.expired n then .ok StatusNetworkError
  else if child.err.isSome then .error (str "starting bws diagnostic")
  else .ok (classifyAccess child.exitCode stderr.buf)

/-- The loop of `CheckAccess` over the projects. -/
def probeAll (s : Server) (runtime : Runtime) (token : Bytes) :
    ℕ → List Project → Except Bytes (List ProjectResult)
  | _, [] => .ok []
  | n, p :: ps =>
    match s.probeAccess n runtime token p.bwsProjectID with
    | .error err => .error err
    | .ok status =>
      match s.probeAll runtime token (n + 1) ps with
      | .error err => .error err
      | .ok results => .ok (⟨p.projectAlias, p.bwsProjectID, status⟩ :: results)

def checkAccess [Platform] (s : Server) (name : Bytes) : Except Bytes AccessDiag.Result :=
  match s.prepare with
  | .error err => .error err
  | .ok cfg =>
    match selectAccessProjects cfg.projects name with
    | .error err => .error err
    | .ok projects =>
      match s.resolveToken cfg with
      | .error err => .error err
      | .ok token =>
        match s.probeAll cfg.runtime token 0 projects with
        | .error err => .error err
        | .ok results => .ok ⟨Version, aggregate results, results⟩

/-- The command `access-check` of the worker, with the arguments after that word. `writeErr` says
that the output could not be written. -/
def accessCheck [Platform] (s : Server) (args : List Bytes) (writeErr : Bool) : Finished :=
  match s.checkAccess (args.headD []) with
  | .error _ => ⟨2, [], str "secrets-broker-worker: access check failed\n"⟩
  | .ok result =>
    if writeErr then ⟨2, [], str "secrets-broker-worker: access check output failed\n"⟩
    else ⟨if result.outcome ≠ OutcomeAllAccessible then 1 else 0, result.encode, []⟩

end Server

/-! ## The administrator's side -/

namespace WorkerAccessChecker

/-- `accessOutputLimit` -/
def accessOutputLimit : ℕ := 2 <<< 20

/-- The arguments after the word `access-check`. -/
def accessArgs (name : Bytes) : List Bytes := if name ≠ [] then [name] else []

/-- The command that is run as the worker's user. -/
def accessCommand (name : Bytes) : Command where
  path := str "/usr/sbin/runuser"
  args := [str "-u", str "secrets-broker", str "--",
    str "/usr/local/libexec/secrets-broker-worker", str "access-check"] ++ accessArgs name
  env := []
  dir := str "/"

def failed : Bytes := str "worker access diagnostic failed"

def invalidResult : Bytes := str "worker access diagnostic returned an invalid result"

def checkAccess [Unicode] (run : Command → Captured) (name : Bytes) :
    Except Bytes AccessDiag.Result :=
  let child := run (accessCommand name)
  let stdout := capture accessOutputLimit child.stdout
  let stderr := capture accessOutputLimit child.stderr
  if child.err.isSome || stdout.exceeded || stderr.exceeded || stderr.buf != [] then .error failed
  else if child.exitCode ≠ 0 ∧ child.exitCode ≠ 1 then .error failed
  else
    match Json.decodeSole true resultFields .zero stdout.buf with
    | none => .error invalidResult
    | some result =>
      match result.validate with
      | .error _ => .error invalidResult
      | .ok () =>
        if child.exitCode ≠ (if result.outcome = OutcomeAllAccessible then 0 else 1) then
          .error invalidResult
        else .ok result

end WorkerAccessChecker

/-! ## What `Validate` accepts -/

namespace AccessDiag

theorem validateProjects_ok_iff [Unicode] (seen : List Bytes) (ps : List ProjectResult) :
    validateProjects seen ps = .ok () ↔
      (ps.map ProjectResult.projectAlias).Nodup ∧ (∀ p ∈ ps, p.projectAlias ∉ seen) ∧
        ∀ p ∈ ps, safeIdentifier p.projectAlias = true ∧ safeIdentifier p.bwsProjectID = true ∧
          p.status ∈ statuses := by
  refine Fallible.seen_eq_ok_iff (fun _ => rfl) fun seen p ps => ?_
  rw [validateProjects]
  cases safeIdentifier p.projectAlias <;> cases safeIdentifier p.bwsProjectID <;>
    by_cases hseen : p.projectAlias ∈ seen <;> by_cases hstatus : p.status ∈ statuses <;>
    simp [hseen, hstatus]

theorem Result.validate_ok_iff [Unicode] (r : Result) :
    r.validate = .ok () ↔
      r.version = Version ∧ r.projects ≠ [] ∧
      (∀ p ∈ r.projects, safeIdentifier p.projectAlias = true ∧
        safeIdentifier p.bwsProjectID = true ∧ p.status ∈ statuses) ∧
      (r.projects.map ProjectResult.projectAlias).Nodup ∧ r.outcome = aggregate r.projects := by
  have hloop := validateProjects_ok_iff [] r.projects
  simp only [List.not_mem_nil, not_false_eq_true, implies_true, true_and] at hloop
  rw [and_comm] at hloop
  by_cases hv : r.version = Version
  · by_cases hp : r.projects = []
    · simp [Result.validate, hv, hp]
    · rw [← and_assoc (c := _ = aggregate _), ← hloop]
      cases hval : validateProjects [] r.projects with
      | error err => simp [Result.validate, hv, hp, hval]
      | ok u => by_cases ho : r.outcome = aggregate r.projects <;>
          simp [Result.validate, hv, hp, hval, ho]
  · simp [Result.validate, hv]

/-! ## What JSON carries -/

theorem aggregateFrom_mem {worst : Bytes} (hw : worst ∈ outcomes) (ps : List ProjectResult) :
    aggregateFrom worst ps ∈ outcomes := by
  induction ps generalizing worst with
  | nil => exact hw
  | cons p ps ih =>
    simp only [aggregateFrom]
    -- the outcome so far stays or becomes another one
    split_ifs <;> first | exact ih hw | exact ih (by simp [outcomes]) | simp [outcomes]

theorem valid_of_mem_outcomes {o : Bytes} (h : o ∈ outcomes) : Valid o := by
  have hall : ∀ o ∈ outcomes, Valid o := by decide +kernel
  exact hall o h

theorem valid_of_mem_statuses {o : Bytes} (h : o ∈ statuses) : Valid o := by
  have hall : ∀ o ∈ statuses, Valid o := by decide +kernel
  exact hall o h

/-- What becomes of a project in JSON. -/
def ProjectResult.toValid (p : ProjectResult) : ProjectResult :=
  ⟨Utf8.toValid p.projectAlias, Utf8.toValid p.bwsProjectID, Utf8.toValid p.status⟩

theorem carries_projectResult (p : ProjectResult) :
    (Json.Kind.struct true projectFields).Carries .zero p p.toValid := by
  refine Json.Kind.carries_struct ?_ (by decide +kernel) true
  refine .of (Json.Kind.carries_string _ _) rfl ?_
  refine .of (Json.Kind.carries_string _ _) rfl ?_
  exact .of (Json.Kind.carries_string _ _) rfl (.nil _)

theorem Result.decode_encode (r : Result) :
    Json.decodeSole true resultFields .zero r.encode =
      some ⟨r.version, Utf8.toValid r.outcome, r.projects.map ProjectResult.toValid⟩ := by
  refine Json.Carried.decodeSole ?_ (by decide +kernel) true
  refine .of (Json.Kind.carries_int _ _) rfl ?_
  refine .of (Json.Kind.carries_string _ _) rfl ?_
  have hprojects : ((Json.Kind.struct true projectFields).slice .zero).Carries (some [])
      (some r.projects) (some (r.projects.map ProjectResult.toValid)) :=
    Json.Kind.carries_slice rfl fun p _ => ⟨by simp [Json.Kind.struct], carries_projectResult p⟩
  exact .of hprojects rfl (.nil _)

/-- What a result loses in JSON: nothing when its texts are valid UTF-8. -/
theorem Result.back_eq_iff {r : Result} (ho : Valid r.outcome)
    (hs : ∀ p ∈ r.projects, Valid p.status) :
    (⟨r.version, Utf8.toValid r.outcome, r.projects.map ProjectResult.toValid⟩ : Result) = r ↔
      ∀ p ∈ r.projects, Valid p.projectAlias ∧ Valid p.bwsProjectID := by
  have hp : ∀ p : ProjectResult, Valid p.status →
      (p.toValid = p ↔ Valid p.projectAlias ∧ Valid p.bwsProjectID) := by
    intro p hstatus
    obtain ⟨a, i, st⟩ := p
    simp only [ProjectResult.toValid, ProjectResult.mk.injEq, toValid_eq_self_iff]
    exact ⟨fun h => ⟨h.1, h.2.1⟩, fun h => ⟨h.1, h.2, hstatus⟩⟩
  obtain ⟨v, o, ps⟩ := r
  simp only [Result.mk.injEq, (toValid_eq_self_iff o).2 ho, true_and]
  constructor
  · intro h p hmem
    have hself := List.map_eq_map_iff.1 (h.trans (List.map_id ps).symm) p hmem
    exact (hp p (hs p hmem)).1 hself
  · intro h
    conv_rhs => rw [← List.map_id ps]
    exact List.map_congr_left fun p hmem => (hp p (hs p hmem)).2 (h p hmem)

end AccessDiag

/-! ## What the worker reports -/

/-- A text of valid UTF-8 with printable runes only. -/
def Printable [Unicode] (s : Bytes) : Prop := Valid s ∧ ∀ x ∈ scan s, Quote.isPrint x.toRune = true

instance [Unicode] (s : Bytes) : Decidable (Printable s) := inferInstanceAs (Decidable (_ ∧ _))

theorem safeIdentifier_iff [Unicode] {s : Bytes} (hs : s ≠ []) :
    safeIdentifier s = true ↔ ∀ x ∈ scan s, Quote.isPrint x.toRune = true := by
  simp [safeIdentifier, hs]

/-- What a result of the worker satisfies, whatever the policy. -/
structure AccessDiag.Result.Reported (r : AccessDiag.Result) : Prop where
  version : r.version = Version
  outcome : r.outcome = aggregate r.projects
  projects_ne : r.projects ≠ []
  nodup : (r.projects.map ProjectResult.projectAlias).Nodup
  alias_ne : ∀ p ∈ r.projects, p.projectAlias ≠ []
  bwsProjectID_ne : ∀ p ∈ r.projects, p.bwsProjectID ≠ []
  status_mem : ∀ p ∈ r.projects, p.status ∈ statuses

theorem selectAccessProjects_ok {ps qs : List Project} {name : Bytes} (hps : ps ≠ [])
    (h : selectAccessProjects ps name = .ok qs) : qs ≠ [] ∧ qs.Sublist ps := by
  unfold selectAccessProjects at h
  split_ifs at h
  · obtain rfl := Except.ok.inj h
    exact ⟨hps, .refl _⟩
  · split at h
    · next p hfind =>
      obtain rfl := Except.ok.inj h
      exact ⟨by simp, List.singleton_sublist.2 (List.mem_of_find?_eq_some hfind)⟩
    · cases h

namespace Server

theorem probeAccess_mem {s : Server} {n : ℕ} {runtime : Runtime} {token projectID status : Bytes}
    (h : s.probeAccess n runtime token projectID = .ok status) : status ∈ statuses := by
  simp only [probeAccess] at h
  split_ifs at h
  · obtain rfl := Except.ok.inj h
    simp [statuses]
  · obtain rfl := Except.ok.inj h
    exact classifyAccess_mem _ _

/-- The results of the probes are the projects in order, each with a status. -/
theorem probeAll_ok {s : Server} {runtime : Runtime} {token : Bytes} {n : ℕ} {ps : List Project}
    {results : List ProjectResult} (h : s.probeAll runtime token n ps = .ok results) :
    (results.map fun r => (r.projectAlias, r.bwsProjectID)) =
        (ps.map fun p => (p.projectAlias, p.bwsProjectID)) ∧
      ∀ r ∈ results, r.status ∈ statuses := by
  induction ps generalizing n results with
  | nil =>
    obtain rfl := Except.ok.inj h
    simp
  | cons p ps ih =>
    rw [probeAll] at h
    split at h
    · cases h
    · next status hprobe =>
      split at h
      · cases h
      · next rest hrest =>
        obtain rfl := Except.ok.inj h
        obtain ⟨hmap, hstatus⟩ := ih hrest
        exact ⟨by simp [hmap], List.forall_mem_cons.2 ⟨probeAccess_mem hprobe, hstatus⟩⟩

/-- The stages of `CheckAccess`. -/
theorem checkAccess_ok [Platform] {s : Server} {name : Bytes} {r : AccessDiag.Result}
    (h : s.checkAccess name = .ok r) : ∃ cfg ps token results, s.prepare = .ok cfg ∧
      selectAccessProjects cfg.projects name = .ok ps ∧ s.resolveToken cfg = .ok token ∧
      s.probeAll cfg.runtime token 0 ps = .ok results ∧
        r = ⟨Version, aggregate results, results⟩ := by
  unfold checkAccess at h
  split at h
  · cases h
  · next cfg hcfg =>
    split at h
    · cases h
    · next ps hselect =>
      split at h
      · cases h
      · next token htoken =>
        split at h
        · cases h
        · next results hprobes =>
          exact ⟨cfg, ps, token, results, hcfg, hselect, htoken, hprobes, (Except.ok.inj h).symm⟩

theorem checkAccess_reported [Platform] {s : Server} {name : Bytes} {r : AccessDiag.Result}
    (h : s.checkAccess name = .ok r) : r.Reported := by
  obtain ⟨cfg, ps, token, results, hcfg, hselect, -, hprobes, rfl⟩ := checkAccess_ok h
  have hacc := accepted_of_prepare hcfg
  obtain ⟨hne, hsub⟩ := selectAccessProjects_ok hacc.projects_ne hselect
  obtain ⟨hmap, hstatus⟩ := probeAll_ok hprobes
  have haliases : results.map ProjectResult.projectAlias = ps.map Project.projectAlias := by
    have hfst := congrArg (List.map Prod.fst) hmap
    rw [List.map_map, List.map_map] at hfst
    exact hfst
  -- every result is about a project of the policy
  have hfrom : ∀ q ∈ results, ∃ p ∈ cfg.projects,
      p.projectAlias = q.projectAlias ∧ p.bwsProjectID = q.bwsProjectID := by
    intro q hq
    have hmem : (q.projectAlias, q.bwsProjectID) ∈
        ps.map fun p => (p.projectAlias, p.bwsProjectID) := by
      rw [← hmap]
      exact List.mem_map.2 ⟨q, hq, rfl⟩
    obtain ⟨p, hp, heq⟩ := List.mem_map.1 hmem
    exact ⟨p, hsub.subset hp, congrArg Prod.fst heq, congrArg Prod.snd heq⟩
  refine ⟨rfl, rfl, ?_, ?_, ?_, ?_, hstatus⟩
  · rintro rfl
    exact hne (List.map_eq_nil_iff.1 haliases.symm)
  · rw [haliases]
    exact hacc.nodup.sublist (hsub.map _)
  · intro q hq
    obtain ⟨p, hp, he, -⟩ := hfrom q hq
    exact he ▸ (hacc.project p hp).alias_ne
  · intro q hq
    obtain ⟨p, hp, -, he⟩ := hfrom q hq
    exact he ▸ (hacc.project p hp).bwsProjectID_ne

theorem accessCheck_of_ok [Platform] {s : Server} {name : Bytes} {r : AccessDiag.Result}
    (h : s.checkAccess name = .ok r) :
    s.accessCheck (WorkerAccessChecker.accessArgs name) false =
      ⟨if r.outcome = OutcomeAllAccessible then 0 else 1, r.encode, []⟩ := by
  have hargs : (WorkerAccessChecker.accessArgs name).headD [] = name := by
    by_cases hname : name = [] <;> simp [WorkerAccessChecker.accessArgs, hname]
  rw [accessCheck, hargs, h]
  simp only [Bool.false_eq_true, if_false, ne_eq, ite_not]

end Server

/-! ## The two sides together -/

theorem AccessDiag.Result.Reported.validate_iff [Unicode] {r : AccessDiag.Result}
    (h : r.Reported) : r.validate = .ok () ↔ ∀ p ∈ r.projects,
      (∀ x ∈ scan p.projectAlias, Quote.isPrint x.toRune = true) ∧
        ∀ x ∈ scan p.bwsProjectID, Quote.isPrint x.toRune = true := by
  rw [AccessDiag.Result.validate_ok_iff]
  constructor
  · rintro ⟨-, -, hsafe, -⟩ p hp
    obtain ⟨ha, hi, -⟩ := hsafe p hp
    exact ⟨(safeIdentifier_iff (h.alias_ne p hp)).1 ha,
      (safeIdentifier_iff (h.bwsProjectID_ne p hp)).1 hi⟩
  · intro hprint
    refine ⟨h.version, h.projects_ne, fun p hp => ⟨?_, ?_, h.status_mem p hp⟩, h.nodup, h.outcome⟩
    · exact (safeIdentifier_iff (h.alias_ne p hp)).2 (hprint p hp).1
    · exact (safeIdentifier_iff (h.bwsProjectID_ne p hp)).2 (hprint p hp).2

/-- What the administrator's side makes of an output that is within the limit. -/
theorem WorkerAccessChecker.checkAccess_eq_ok_iff [Unicode] {run : Command → Captured}
    {name out : Bytes} {r r' : AccessDiag.Result} {code : ℤ} (hcode : code = 0 ∨ code = 1)
    (hrun : (run (accessCommand name)).Delivers ⟨code, out, []⟩)
    (hlimit : out.length ≤ accessOutputLimit)
    (hdec : Json.decodeSole true resultFields .zero out = some r') :
    checkAccess run name = .ok r ↔ r' = r ∧ r'.validate = .ok () ∧
      code = if r'.outcome = OutcomeAllAccessible then 0 else 1 := by
  have hstdout := hrun.capture_stdout hlimit
  have hstderr := hrun.capture_stderr (Nat.zero_le accessOutputLimit)
  have hnot : ¬ (code ≠ 0 ∧ code ≠ 1) := by omega
  simp only [checkAccess, hstdout, hstderr, hrun.err, hrun.exitCode, hdec, Option.isSome_none,
    Bool.or_self, bne_self_eq_false, Bool.false_eq_true, if_false, if_neg hnot]
  cases hval : r'.validate with
  | error err => simp
  | ok u => by_cases hc : code = if r'.outcome = OutcomeAllAccessible then 0 else 1 <;> simp [hc]

section Demo

/-- A policy with one project, whose alias is the text of the file. -/
@[reducible] def aliasPlatform : Platform where
  isPrint _ := true
  unmarshal data := .ok
    { runtime := ⟨str "/bin/bws", str "/bin", str "/var/lib/worker"⟩
      tokenSource := ⟨Config.BackendFile, [], str "/etc/token"⟩
      approvalSource := ⟨Config.ApprovalBackendTailscaleRelay, ⟨str "http://relay", 2, 300⟩⟩
      projects := [⟨data, str "id", str "entry", str "/srv", Config.ApprovalNever, none⟩] }
  parseURL _ := some ⟨str "http", str "relay", false, [], [], []⟩

/-- A worker on which every probe succeeds, with the given alias in its policy. -/
def aliasServer (name : Bytes) : Server where
  policy := .ok name
  validateExecutable _ := none
  validatePrivateDir _ := none
  validateTrustedDir _ := none
  resolve _ := .ok (str "token")
  run _ _ := ⟨0, none, [], []⟩
  expired _ := false

/-- The administrator's side runs the worker, and gets its output in one piece. -/
def aliasRun (name : Bytes) (_ : Command) : Captured :=
  letI := aliasPlatform
  let f := (aliasServer name).accessCheck [] false
  ⟨f.exitCode, none, [f.out], []⟩

def aliasResult (name : Bytes) : AccessDiag.Result :=
  ⟨Version, OutcomeAllAccessible, [⟨name, str "id", StatusAccessible⟩]⟩

end Demo

end SecretsBroker
