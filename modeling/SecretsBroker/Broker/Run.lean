import SecretsBroker.Config
import SecretsBroker.Foundations.Interaction

/-!
# The broker

`internal/broker` and `internal/policy`: the decision core `decide` over the exact-match allowlist,
the prompt shown to the approver, and `Run`, which puts the audit log, the decision, the approval,
the token and the runner in order. `Run` is a program over the calls it makes to its adapters and to
the file system, so what the adapters answer stays open.
-/

namespace SecretsBroker

open Interaction

/-! ## The data of the adapters -/

/-- `approval.Decision`, an int whose zero value is the safe one. -/
abbrev Decision := ℤ

namespace Decision

def denied : Decision := 0
def approved : Decision := 1

end Decision

/-- `audit.StartRecord`. -/
structure StartRecord where
  project : Bytes
  workingDir : Bytes
  argv : List Bytes
  deriving DecidableEq

/-- `audit.FinishRecord`. -/
structure FinishRecord where
  outcome : Bytes
  exitCode : Option ℤ
  deriving DecidableEq

/-- `token.Token`. -/
structure Token where
  value : Bytes
  deriving DecidableEq

/-- An input or output stream of a request, by a handle; nil when there is none. -/
abbrev Stream := Option ℕ

/-- `runner.RunSpec`. -/
structure RunSpec where
  projectID : Bytes
  token : Token
  workingDir : Bytes
  argv : List Bytes
  stdin : Stream
  stdout : Stream
  stderr : Stream
  deriving DecidableEq

/-- `runner.Result`. -/
structure RunResult where
  exitCode : ℤ
  deriving DecidableEq

/-! ## The decision core -/

namespace Policy

/-- `argvEqual`: equal lengths, then equal elements. -/
def argvEqual (a b : List Bytes) : Bool :=
  if a.length ≠ b.length then false else (a.zip b).all fun p => p.1 == p.2

/-- `Match`: whether some allowlist entry equals `argv`. -/
def matches? (allow : List (List Bytes)) (argv : List Bytes) : Bool :=
  allow.any fun entry => argvEqual entry argv

theorem argvEqual_iff (a b : List Bytes) : argvEqual a b = true ↔ a = b := by
  unfold argvEqual
  split_ifs with h
  · refine ⟨fun hf => absurd hf (by simp), fun e => absurd (congrArg List.length e) h⟩
  · rw [not_not] at h
    induction a generalizing b with
    | nil =>
      obtain rfl := List.length_eq_zero_iff.1 h.symm
      simp
    | cons x a ih =>
      cases b with
      | nil => simp at h
      | cons y b =>
        have hl : a.length = b.length := by simpa using h
        simp only [List.zip_cons_cons, List.all_cons, Bool.and_eq_true, beq_iff_eq, ih b hl,
          List.cons.injEq]

/-- **The allowlist matches exactly its entries.** -/
theorem matches?_iff (allow : List (List Bytes)) (argv : List Bytes) :
    matches? allow argv = true ↔ argv ∈ allow := by
  simp only [matches?, List.any_eq_true, argvEqual_iff]
  exact ⟨fun ⟨_, h, e⟩ => e ▸ h, fun h => ⟨argv, h, rfl⟩⟩

end Policy

inductive Verdict
  | deny
  | allow
  | prompt
  deriving DecidableEq

/-- `Broker.decide`: the verdict of a project on a command. -/
def Project.decide (p : Project) (argv : List Bytes) : Verdict :=
  if p.approval = Config.ApprovalAlways then .prompt
  else
    let allowlisted := Policy.matches? p.allowArgv argv
    if allowlisted && p.approval = Config.ApprovalAllowlistedPrompt then .prompt
    else if allowlisted then .allow
    else if p.approval = Config.ApprovalPrompt then .prompt
    else .deny

/-- The denial reasons. -/
inductive Reason
  | unknownProject
  | notAllowlisted
  | approvalRejected
  | tokenResolutionFailed
  | runnerStartFailed
  | auditUnavailable
  | workingDirectoryNotAllowed
  deriving DecidableEq

/-- The machine-readable text of a reason. -/
def Reason.text : Reason → Bytes
  | .unknownProject => str "unknown_project"
  | .notAllowlisted => str "not_allowlisted"
  | .approvalRejected => str "approval_rejected"
  | .tokenResolutionFailed => str "token_resolution_failed"
  | .runnerStartFailed => str "runner_start_failed"
  | .auditUnavailable => str "audit_unavailable"
  | .workingDirectoryNotAllowed => str "working_directory_not_allowed"

/-- `formatPrompt`: a header with the project, the directory, and one line for each argument. -/
def formatPrompt [Unicode] (project workingDir : Bytes) (argv : List Bytes) : Bytes :=
  let lines := argv.mapIdx fun i arg =>
    str "  argv[" ++ itoa i ++ str "] = " ++ quoteToASCII arg
  str "secrets-broker: allow project " ++ quote project ++ str " to run:\n\nworking directory: " ++
    quoteToASCII workingDir ++ str "\n" ++ (str "\n").intercalate lines

/-- A prompt is valid UTF-8, whatever the bytes of the request are. -/
theorem valid_formatPrompt [Unicode] (project workingDir : Bytes) (argv : List Bytes) :
    Utf8.Valid (formatPrompt project workingDir argv) := by
  have happ : ∀ {s t : Bytes}, Utf8.Valid s → Utf8.Valid t → Utf8.Valid (s ++ t) :=
    fun hs ht => Utf8.valid_append hs ht
  have hlines : ∀ l ∈ argv.mapIdx fun i arg =>
      str "  argv[" ++ itoa i ++ str "] = " ++ quoteToASCII arg, Utf8.Valid l := by
    intro l hl
    obtain ⟨i, hi, rfl⟩ := List.mem_mapIdx.1 hl
    exact happ (happ (happ (Utf8.valid_str _) (valid_itoa _)) (Utf8.valid_str _))
      (valid_quoteToASCII _)
  have hjoin : Utf8.Valid ((str "\n").intercalate (argv.mapIdx fun i arg =>
      str "  argv[" ++ itoa i ++ str "] = " ++ quoteToASCII arg)) :=
    Utf8.valid_intercalate (Utf8.valid_str _) hlines
  exact happ (happ (happ (happ (happ (Utf8.valid_str _) (valid_quote _)) (Utf8.valid_str _))
    (valid_quoteToASCII _)) (Utf8.valid_str _)) hjoin

/-! ## `Run` -/

namespace Broker

/-- The calls of `Run`: to the audit log, to the file system, to the approver, to the token
resolver and to the runner. -/
inductive Call
  | start (rec : StartRecord)
  | evalSymlinks (path : Bytes)
  | approve (prompt : Bytes)
  | approveCause
  | resolve (entry : Bytes)
  | run (spec : RunSpec)
  | finish (runID : Bytes) (rec : FinishRecord)

/-- What a call is answered by. Errors are their texts; the approver may return any decision along
with an error. -/
abbrev Call.Answer : Call → Type
  | .start _ => Except Bytes Bytes
  | .evalSymlinks _ => Except Bytes Bytes
  | .approve _ => Decision × Option Bytes
  | .approveCause => Bytes
  | .resolve _ => Except Bytes Token
  | .run _ => Except Bytes RunResult
  | .finish _ _ => Option Bytes

abbrev Program := Prog Call Call.Answer
abbrev Calls := Trace Call.Answer

end Broker

/-- `RunRequest`. -/
structure RunRequest where
  project : Bytes
  workingDir : Bytes
  argv : List Bytes
  stdin : Stream
  stdout : Stream
  stderr : Stream

/-- `RunOutcome`. The reason is set when the request was denied. -/
structure RunOutcome where
  denied : Bool
  reason : Option Reason := none
  approvalCause : Bytes := []
  exitCode : ℤ := 0
  auditIncomplete : Bool := false

/-- `Broker`: the configuration, and whether the approver can explain a denial
(`approval.CauseProvider`). The adapters themselves are on the other side of the calls. -/
structure Broker where
  cfg : Config
  causeProvider : Bool

namespace Broker

/-- `sameWorkingDir`: both directories resolve, to the same path. -/
def sameWorkingDir (allowed requested : Bytes) : Program Bool :=
  if requested = [] then pure false
  else do
    match ← Prog.ask (Call.evalSymlinks allowed) with
    | .error _ => pure false
    | .ok allowedPath =>
      match ← Prog.ask (Call.evalSymlinks requested) with
      | .error _ => pure false
      | .ok requestedPath => pure (Path.clean allowedPath == Path.clean requestedPath)

/-- The closure `deny` of `Run`. -/
def deny (runID : Bytes) (reason : Reason) : Program RunOutcome := do
  let finishErr ← Prog.ask (Call.finish runID ⟨str "denied:" ++ reason.text, none⟩)
  pure { denied := true, reason := some reason, auditIncomplete := finishErr.isSome }

/-- The part of `Run` after the command was allowed or approved: token, execution, audit. -/
def execute (runID : Bytes) (project : Project) (req : RunRequest) : Program RunOutcome := do
  match ← Prog.ask (Call.resolve project.tokenEntry) with
  | .error _ => deny runID .tokenResolutionFailed
  | .ok tok =>
    match ← Prog.ask (Call.run
      { projectID := project.bwsProjectID, token := tok, workingDir := req.workingDir,
        argv := req.argv, stdin := req.stdin, stdout := req.stdout, stderr := req.stderr }) with
    | .error _ => deny runID .runnerStartFailed
    | .ok result =>
      let finishErr ← Prog.ask (Call.finish runID ⟨str "executed", some result.exitCode⟩)
      pure { denied := false, exitCode := result.exitCode,
             auditIncomplete := finishErr.isSome }

/-- The denial of `Run` after the approver did not approve, with the approver's explanation. -/
def rejected (b : Broker) (runID : Bytes) : Program RunOutcome := do
  let outcome ← deny runID .approvalRejected
  if b.causeProvider then
    let cause ← Prog.ask Call.approveCause
    if cause ≠ [] then
      -- the source asks the approver a second time for the text it reports
      let cause ← Prog.ask Call.approveCause
      pure { outcome with approvalCause := cause }
    else pure outcome
  else pure outcome

/-- The switch of `Run` over the verdict. -/
def authorise [Unicode] (b : Broker) (runID : Bytes) (project : Project) (req : RunRequest) :
    Program RunOutcome :=
  match project.decide req.argv with
  | .deny => deny runID .notAllowlisted
  | .prompt => do
    let (decision, approveErr) ←
      Prog.ask (Call.approve (formatPrompt req.project req.workingDir req.argv))
    if approveErr.isSome ∨ decision ≠ Decision.approved then b.rejected runID
    else execute runID project req
  | .allow => execute runID project req

/-- `Run`. -/
def run [Unicode] (b : Broker) (req : RunRequest) : Program RunOutcome := do
  match ← Prog.ask (Call.start ⟨req.project, req.workingDir, req.argv⟩) with
  | .error _ => pure { denied := true, reason := some .auditUnavailable }
  | .ok runID =>
    match b.cfg.project req.project with
    | none => deny runID .unknownProject
    | some project =>
      if project.workingDir ≠ [] then
        if ← sameWorkingDir project.workingDir req.workingDir then b.authorise runID project req
        else deny runID .workingDirectoryNotAllowed
      else b.authorise runID project req

end Broker

end SecretsBroker
