import SecretsBroker.Broker.Run

/-!
# What a run of the broker has done when it calls the runner

`run_cases` reads a run of `Run` backwards, for every behaviour of the adapters: a run either stops
before the runner, or it is a successful audit start, the directory check, the approval when the
policy asks for one, the token, one call of the runner and the audit finish, in this order. The
gate (`runner_gated`) and the pairing of audit records follow.
-/

namespace SecretsBroker

open Interaction

namespace Broker

/-- A call of the runner. -/
def isRunner (e : Event Call.Answer) : Bool := e.1 matches .run _

/-- A call that closes the audit record. -/
def isFinish (e : Event Call.Answer) : Bool := e.1 matches .finish _ _

/-- The audit record that belongs to an outcome. -/
def finishRecord (out : RunOutcome) : FinishRecord :=
  if out.denied then ⟨str "denied:" ++ (out.reason.map Reason.text).getD [], none⟩
  else ⟨str "executed", some out.exitCode⟩

/-- The outcome of a run whose runner answered `result`. -/
def Reflects (out : RunOutcome) : Except Bytes RunResult → Prop
  | .error _ => out.denied = true ∧ out.reason = some .runnerStartFailed
  | .ok result => out.denied = false ∧ out.exitCode = result.exitCode

/-- What the runner is given for a request. -/
def runSpec (project : Project) (req : RunRequest) (tok : Token) : RunSpec where
  projectID := project.bwsProjectID
  token := tok
  workingDir := req.workingDir
  argv := req.argv
  stdin := req.stdin
  stdout := req.stdout
  stderr := req.stderr

/-- The audit start record of a request. -/
def startRecord (req : RunRequest) : StartRecord := ⟨req.project, req.workingDir, req.argv⟩

/-- `dirCalls` are the calls of an accepted directory check, none when the project is not bound to
a directory. -/
def DirAccepted (project : Project) (req : RunRequest) (dirCalls : Calls) : Prop :=
  (project.workingDir = [] ∧ dirCalls = []) ∨
    (project.workingDir ≠ [] ∧
      Runs (sameWorkingDir project.workingDir req.workingDir) dirCalls true)

/-- `approvalCalls` are what authorises the command: nothing for an allowlisted command under
`never` or `prompt`, and otherwise one approval of the prompt of this very request. -/
def Authorised [Unicode] (project : Project) (req : RunRequest) (approvalCalls : Calls) : Prop :=
  (approvalCalls = [] ∧ req.argv ∈ project.allowArgv ∧
      (project.approval = Config.ApprovalNever ∨ project.approval = Config.ApprovalPrompt)) ∨
    (approvalCalls = [⟨.approve (formatPrompt req.project req.workingDir req.argv),
        (Decision.approved, none)⟩] ∧
      (project.approval = Config.ApprovalAlways ∨
        (project.approval = Config.ApprovalPrompt ∧ req.argv ∉ project.allowArgv) ∨
        (project.approval = Config.ApprovalAllowlistedPrompt ∧ req.argv ∈ project.allowArgv)))

/-- `approvalCalls` are the calls that follow the verdict of the project on the command. -/
def Cleared [Unicode] (project : Project) (req : RunRequest) (approvalCalls : Calls) : Prop :=
  (approvalCalls = [] ∧ project.decide req.argv = .allow) ∨
    (approvalCalls = [⟨.approve (formatPrompt req.project req.workingDir req.argv),
        (Decision.approved, none)⟩] ∧ project.decide req.argv = .prompt)

/-- `before` is what the run `runID` has done when it calls the runner with `spec`, where
`Permits project req calls` says what the calls that authorise the command are. -/
def Passed (Permits : Project → RunRequest → Calls → Prop) (b : Broker) (req : RunRequest)
    (runID : Bytes) (before : Calls) (spec : RunSpec) : Prop :=
  ∃ project tok dirCalls approvalCalls,
    before = ⟨.start (startRecord req), .ok runID⟩ ::
      (dirCalls ++ approvalCalls ++ [⟨.resolve project.tokenEntry, .ok tok⟩]) ∧
    b.cfg.project req.project = some project ∧
    DirAccepted project req dirCalls ∧
    Permits project req approvalCalls ∧
    spec = runSpec project req tok

/-- `before` is what the run `runID` has to have done when it calls the runner with `spec`. -/
def Gated [Unicode] : Broker → RunRequest → Bytes → Calls → RunSpec → Prop := Passed Authorised

/-! ## The pieces of a run -/

theorem runs_deny {runID : Bytes} {reason : Reason} {tr : Calls} {out : RunOutcome}
    (h : Runs (deny runID reason) tr out) :
    ∃ res, tr = [⟨.finish runID (finishRecord out), res⟩] ∧ out.denied = true ∧
      out.reason = some reason := by
  obtain ⟨res, tr', rfl, h₁⟩ := runs_ask_bind.1 h
  obtain ⟨rfl, rfl⟩ := runs_pure.1 h₁
  exact ⟨res, rfl, rfl, rfl⟩

theorem runs_rejected {b : Broker} {runID : Bytes} {tr : Calls} {out : RunOutcome}
    (h : Runs (b.rejected runID) tr out) :
    ∃ res causes, tr = ⟨.finish runID (finishRecord out), res⟩ :: causes ∧
      (∀ e ∈ causes, e.1 = .approveCause) ∧ out.denied = true := by
  obtain ⟨tr₁, tr₂, outcome, rfl, h₁, h₂⟩ := runs_bind.1 h
  obtain ⟨res, rfl, hd, hr⟩ := runs_deny h₁
  have hrec : ∀ cause, finishRecord { outcome with approvalCause := cause } =
      finishRecord outcome := fun _ => rfl
  split at h₂
  · obtain ⟨cause, tr₃, rfl, h₃⟩ := runs_ask_bind.1 h₂
    split at h₃
    · obtain ⟨cause', tr₄, rfl, h₄⟩ := runs_ask_bind.1 h₃
      obtain ⟨rfl, rfl⟩ := runs_pure.1 h₄
      exact ⟨res, _, by rw [hrec]; rfl, by simp, hd⟩
    · obtain ⟨rfl, rfl⟩ := runs_pure.1 h₃
      exact ⟨res, _, rfl, by simp, hd⟩
  · obtain ⟨rfl, rfl⟩ := runs_pure.1 h₂
    exact ⟨res, [], rfl, by simp, hd⟩

/-- The end of a run that was let through: the token failed, or the runner was called once. -/
theorem runs_execute {runID : Bytes} {project : Project} {req : RunRequest} {tr : Calls}
    {out : RunOutcome} (h : Runs (execute runID project req) tr out) :
    (∃ e res, tr = [⟨.resolve project.tokenEntry, .error e⟩,
        ⟨.finish runID (finishRecord out), res⟩] ∧ out.denied = true) ∨
      ∃ tok result res, tr = [⟨.resolve project.tokenEntry, .ok tok⟩,
        ⟨.run (runSpec project req tok), result⟩, ⟨.finish runID (finishRecord out), res⟩] ∧
        Reflects out result := by
  obtain ⟨r, tr₁, rfl, h₁⟩ := runs_ask_bind.1 h
  cases r with
  | error e =>
    obtain ⟨res, rfl, hd, -⟩ := runs_deny h₁
    exact Or.inl ⟨e, res, rfl, hd⟩
  | ok tok =>
    refine Or.inr ⟨tok, ?_⟩
    obtain ⟨result, tr₂, rfl, h₂⟩ := runs_ask_bind.1 h₁
    cases result with
    | error e =>
      obtain ⟨res, rfl, hd, hr⟩ := runs_deny h₂
      exact ⟨.error e, res, rfl, hd, hr⟩
    | ok result =>
      obtain ⟨res, tr₃, rfl, h₃⟩ := runs_ask_bind.1 h₂
      obtain ⟨rfl, rfl⟩ := runs_pure.1 h₃
      exact ⟨.ok result, res, rfl, rfl, rfl⟩

/-- The calls of the directory check are resolutions of paths. -/
theorem runs_sameWorkingDir {allowed requested : Bytes} {tr : Calls} {ok : Bool}
    (h : Runs (sameWorkingDir allowed requested) tr ok) :
    ∀ e ∈ tr, e.1 matches .evalSymlinks _ := by
  unfold sameWorkingDir at h
  split at h
  · obtain ⟨rfl, -⟩ := runs_pure.1 h
    simp
  · obtain ⟨r, tr₁, rfl, h₁⟩ := runs_ask_bind.1 h
    cases r with
    | error e =>
      obtain ⟨rfl, -⟩ := runs_pure.1 h₁
      simp
    | ok allowedPath =>
      obtain ⟨r, tr₂, rfl, h₂⟩ := runs_ask_bind.1 h₁
      cases r with
      | error e =>
        obtain ⟨rfl, -⟩ := runs_pure.1 h₂
        simp
      | ok requestedPath =>
        obtain ⟨rfl, -⟩ := runs_pure.1 h₂
        simp

/-- An accepted directory check has resolved both directories, to the same clean path. -/
theorem runs_sameWorkingDir_true {allowed requested : Bytes} {tr : Calls}
    (h : Runs (sameWorkingDir allowed requested) tr true) :
    ∃ allowedPath requestedPath,
      tr = [⟨.evalSymlinks allowed, .ok allowedPath⟩,
        ⟨.evalSymlinks requested, .ok requestedPath⟩] ∧
      Path.clean allowedPath = Path.clean requestedPath := by
  unfold sameWorkingDir at h
  split at h
  · exact absurd (runs_pure.1 h).2 (by simp)
  · obtain ⟨r, tr₁, rfl, h₁⟩ := runs_ask_bind.1 h
    cases r with
    | error e => exact absurd (runs_pure.1 h₁).2 (by simp)
    | ok allowedPath =>
      obtain ⟨r, tr₂, rfl, h₂⟩ := runs_ask_bind.1 h₁
      cases r with
      | error e => exact absurd (runs_pure.1 h₂).2 (by simp)
      | ok requestedPath =>
        obtain ⟨rfl, heq⟩ := runs_pure.1 h₂
        exact ⟨allowedPath, requestedPath, rfl, by simpa using heq.symm⟩

/-! ## The decision on an accepted project -/

theorem decide_eq_allow {p : Project} (hp : Config.ProjectAccepted p) {argv : List Bytes}
    (h : p.decide argv = .allow) : argv ∈ p.allowArgv ∧
      (p.approval = Config.ApprovalNever ∨ p.approval = Config.ApprovalPrompt) := by
  have hmem := hp.approval_mem
  simp only [Config.approvalModes, List.mem_cons, List.not_mem_nil, or_false] at hmem
  simp only [Project.decide] at h
  split_ifs at h with h₁ h₂ h₃
  simp only [h₃, Bool.true_and, decide_eq_true_eq] at h₂
  refine ⟨(Policy.matches?_iff _ _).1 h₃, ?_⟩
  rcases hmem with hm | hm | hm | hm
  · exact absurd hm h₁
  · exact Or.inr hm
  · exact absurd hm h₂
  · exact Or.inl hm

theorem decide_eq_prompt {p : Project} {argv : List Bytes} (h : p.decide argv = .prompt) :
    p.approval = Config.ApprovalAlways ∨
      (p.approval = Config.ApprovalPrompt ∧ argv ∉ p.allowArgv) ∨
      (p.approval = Config.ApprovalAllowlistedPrompt ∧ argv ∈ p.allowArgv) := by
  simp only [Project.decide] at h
  split_ifs at h with h₁ h₂ h₃ h₄
  · exact Or.inl h₁
  · simp only [Bool.and_eq_true, decide_eq_true_eq] at h₂
    exact Or.inr (Or.inr ⟨h₂.2, (Policy.matches?_iff _ _).1 h₂.1⟩)
  · exact Or.inr (Or.inl ⟨h₄, fun hmem => h₃ ((Policy.matches?_iff _ _).2 hmem)⟩)

theorem Cleared.authorised [Unicode] {p : Project} (hp : Config.ProjectAccepted p)
    {req : RunRequest} {calls : Calls} (h : Cleared p req calls) : Authorised p req calls := by
  rcases h with ⟨rfl, hv⟩ | ⟨rfl, hv⟩
  · exact Or.inl ⟨rfl, decide_eq_allow hp hv⟩
  · exact Or.inr ⟨rfl, decide_eq_prompt hv⟩

theorem Passed.gated [Unicode] {b : Broker} (hcfg : b.cfg.Accepted) {req : RunRequest}
    {runID : Bytes} {before : Calls} {spec : RunSpec} (h : Passed Cleared b req runID before spec) :
    Gated b req runID before spec := by
  obtain ⟨project, tok, dirCalls, calls, hbefore, hproj, hdir, hcleared, hspec⟩ := h
  have hacc := hcfg.project project (Config.project_mem hproj)
  exact ⟨project, tok, dirCalls, calls, hbefore, hproj, hdir, hcleared.authorised hacc, hspec⟩

/-! ## Whole runs -/

/-- Calls that neither run the command nor close the audit record. -/
def Quiet (tr : Calls) : Prop := ∀ e ∈ tr, isRunner e = false ∧ isFinish e = false

theorem quiet_nil : Quiet [] := by simp [Quiet]

theorem Quiet.append {tr₁ tr₂ : Calls} (h₁ : Quiet tr₁) (h₂ : Quiet tr₂) : Quiet (tr₁ ++ tr₂) :=
  fun e he => (List.mem_append.1 he).elim (h₁ e) (h₂ e)

theorem quiet_sameWorkingDir {allowed requested : Bytes} {tr : Calls} {ok : Bool}
    (h : Runs (sameWorkingDir allowed requested) tr ok) : Quiet tr := by
  intro e he
  have := runs_sameWorkingDir h e he
  obtain ⟨c, r⟩ := e
  cases c <;> simp_all [isRunner, isFinish]

/-- A run that stops before the runner: quiet calls, the audit finish of a denial, and at most
questions about the cause after it. -/
def Stopped (runID : Bytes) (tr : Calls) (out : RunOutcome) : Prop :=
  ∃ calls res causes, tr = calls ++ ⟨.finish runID (finishRecord out), res⟩ :: causes ∧
    Quiet calls ∧ (∀ e ∈ causes, e.1 = .approveCause) ∧ out.denied = true

/-- A run that calls the runner, after `calls`. -/
def Ran (runID : Bytes) (project : Project) (req : RunRequest) (calls tr : Calls)
    (out : RunOutcome) : Prop :=
  ∃ tok result res, tr = calls ++ [⟨.resolve project.tokenEntry, .ok tok⟩,
      ⟨.run (runSpec project req tok), result⟩, ⟨.finish runID (finishRecord out), res⟩] ∧
    Reflects out result

theorem Stopped.prepend {runID : Bytes} {pre tr : Calls} {out : RunOutcome} (hpre : Quiet pre)
    (h : Stopped runID tr out) : Stopped runID (pre ++ tr) out := by
  obtain ⟨calls, res, causes, rfl, hq, hc, hd⟩ := h
  exact ⟨pre ++ calls, res, causes, by simp, hpre.append hq, hc, hd⟩

theorem stopped_deny {runID : Bytes} {reason : Reason} {tr : Calls} {out : RunOutcome}
    (h : Runs (deny runID reason) tr out) : Stopped runID tr out := by
  obtain ⟨res, rfl, hd, -⟩ := runs_deny h
  exact ⟨[], res, [], rfl, quiet_nil, by simp, hd⟩

theorem execute_cases {runID : Bytes} {project : Project} {req : RunRequest} {tr : Calls}
    {out : RunOutcome} (h : Runs (execute runID project req) tr out) :
    Stopped runID tr out ∨ Ran runID project req [] tr out := by
  rcases runs_execute h with ⟨e, res, rfl, hd⟩ | h
  · exact Or.inl ⟨[_], res, [], rfl, by simp [Quiet, isRunner, isFinish], by simp, hd⟩
  · exact Or.inr h

theorem authorise_cases [Unicode] {b : Broker} {runID : Bytes} {project : Project}
    {req : RunRequest} {tr : Calls} {out : RunOutcome}
    (h : Runs (b.authorise runID project req) tr out) :
    Stopped runID tr out ∨
      ∃ approvalCalls, Cleared project req approvalCalls ∧ Quiet approvalCalls ∧
        Ran runID project req approvalCalls tr out := by
  unfold authorise at h
  split at h
  · exact Or.inl (stopped_deny h)
  · next hv =>
    obtain ⟨⟨decision, err⟩, tr₁, rfl, h₁⟩ := runs_ask_bind.1 h
    have hq : Quiet [⟨.approve (formatPrompt req.project req.workingDir req.argv),
        (decision, err)⟩] := by simp [Quiet, isRunner, isFinish]
    simp only at h₁
    split at h₁
    · obtain ⟨res, causes, rfl, hc, hd⟩ := runs_rejected h₁
      exact Or.inl ⟨_, res, causes, rfl, hq, hc, hd⟩
    · next hok =>
      rw [not_or, not_not, Bool.not_eq_true, Option.isSome_eq_false_iff,
        Option.isNone_iff_eq_none] at hok
      obtain ⟨rfl, rfl⟩ := hok
      rcases execute_cases h₁ with hs | ⟨tok, result, res, rfl, hd⟩
      · exact Or.inl (hs.prepend hq)
      · exact Or.inr ⟨_, Or.inr ⟨rfl, hv⟩, hq, tok, result, res, rfl, hd⟩
  · next hv =>
    rcases execute_cases h with hs | hr
    · exact Or.inl hs
    · exact Or.inr ⟨[], Or.inl ⟨rfl, hv⟩, quiet_nil, hr⟩

/-- A run that passed the directory check with the calls `dirCalls`. -/
theorem cases_of_dirAccepted [Unicode] {b : Broker} {req : RunRequest}
    {runID : Bytes} {project : Project} {dirCalls tr : Calls} {out : RunOutcome}
    (hproj : b.cfg.project req.project = some project) (hdir : DirAccepted project req dirCalls)
    (hquiet : Quiet dirCalls) (h : Runs (b.authorise runID project req) tr out) :
    Stopped runID (dirCalls ++ tr) out ∨
      ∃ before spec result res, Passed Cleared b req runID before spec ∧ Quiet before ∧
        ⟨.start (startRecord req), .ok runID⟩ :: (dirCalls ++ tr) =
          before ++ [⟨.run spec, result⟩, ⟨.finish runID (finishRecord out), res⟩] ∧
        Reflects out result := by
  rcases authorise_cases h with hs | ⟨appr, ha, hqa, tok, result, res, rfl, hd⟩
  · exact Or.inl (hs.prepend hquiet)
  · refine Or.inr ⟨_, runSpec project req tok, result, res,
      ⟨project, tok, dirCalls, appr, rfl, hproj, hdir, ha, rfl⟩, ?_, by simp, hd⟩
    have hstart : Quiet [⟨.start (startRecord req), .ok runID⟩] := by
      simp [Quiet, isRunner, isFinish]
    have hres : Quiet [⟨.resolve project.tokenEntry, .ok tok⟩] := by
      simp [Quiet, isRunner, isFinish]
    exact hstart.append ((hquiet.append hqa).append hres)

/-- **The shape of a run**, for every behaviour of the adapters: the audit start fails; or the run
is stopped before the runner; or the runner is called, once, behind the gate. -/
theorem run_cases [Unicode] {b : Broker} {req : RunRequest} {tr : Calls} {out : RunOutcome}
    (h : Runs (b.run req) tr out) :
    (∃ e, tr = [⟨.start (startRecord req), .error e⟩] ∧ out.denied = true ∧
        out.reason = some .auditUnavailable) ∨
      (∃ runID tr', tr = ⟨.start (startRecord req), .ok runID⟩ :: tr' ∧ Stopped runID tr' out) ∨
      ∃ runID before spec result res, Passed Cleared b req runID before spec ∧ Quiet before ∧
        tr = before ++ [⟨.run spec, result⟩, ⟨.finish runID (finishRecord out), res⟩] ∧
        Reflects out result := by
  obtain ⟨r, tr₁, rfl, h₁⟩ := runs_ask_bind.1 h
  cases r with
  | error e =>
    obtain ⟨rfl, rfl⟩ := runs_pure.1 h₁
    exact Or.inl ⟨e, rfl, rfl, rfl⟩
  | ok runID =>
    refine Or.inr ?_
    cases hproj : b.cfg.project req.project with
    | none =>
      simp only [hproj] at h₁
      exact Or.inl ⟨runID, tr₁, rfl, stopped_deny h₁⟩
    | some project =>
      simp only [hproj] at h₁
      split at h₁
      · next hdir =>
        obtain ⟨dirCalls, tr₂, ok, rfl, h₂, h₃⟩ := runs_bind.1 h₁
        have hq := quiet_sameWorkingDir h₂
        cases ok with
        | false => exact Or.inl ⟨runID, _, rfl, (stopped_deny h₃).prepend hq⟩
        | true =>
          rcases cases_of_dirAccepted hproj (Or.inr ⟨hdir, h₂⟩) hq h₃ with hs | hr
          · exact Or.inl ⟨runID, _, rfl, hs⟩
          · exact Or.inr ⟨runID, hr⟩
      · next hdir =>
        have hacc : DirAccepted project req [] := Or.inl ⟨not_not.1 hdir, rfl⟩
        rcases cases_of_dirAccepted hproj hacc quiet_nil h₁ with hs | hr
        · exact Or.inl ⟨runID, _, rfl, hs⟩
        · exact Or.inr ⟨runID, hr⟩

/-! ## The gate -/

theorem Quiet.not_runner {tr : Calls} (h : Quiet tr) : ∀ e ∈ tr, isRunner e = false :=
  fun e he => (h e he).1

theorem Quiet.countP_runner {tr : Calls} (h : Quiet tr) : tr.countP isRunner = 0 := by
  rw [List.countP_eq_zero]
  intro e he
  simp [(h e he).1]

theorem Quiet.countP_finish {tr : Calls} (h : Quiet tr) : tr.countP isFinish = 0 := by
  rw [List.countP_eq_zero]
  intro e he
  simp [(h e he).2]

theorem quiet_causes {causes : Calls} (h : ∀ e ∈ causes, e.1 = .approveCause) : Quiet causes := by
  intro e he
  have := h e he
  obtain ⟨c, r⟩ := e
  subst this
  exact ⟨rfl, rfl⟩

/-- A run closes its audit record: with one finish, for the run and the record of the outcome. -/
def Closed (runID : Bytes) (tr : Calls) (out : RunOutcome) : Prop :=
  ∃ calls res causes, tr = calls ++ ⟨.finish runID (finishRecord out), res⟩ :: causes ∧
    tr.countP isFinish = 1 ∧ ∀ e ∈ causes, e.1 = .approveCause

/-- The outcome is the one of the runner's answer, and a denial when the runner was not called. -/
def Faithful (tr : Calls) (out : RunOutcome) : Prop :=
  (∀ spec result, ⟨.run spec, result⟩ ∈ tr → Reflects out result) ∧
    (tr.countP isRunner = 0 → out.denied = true)

theorem Stopped.countP_runner {runID : Bytes} {tr : Calls} {out : RunOutcome}
    (h : Stopped runID tr out) : tr.countP isRunner = 0 := by
  obtain ⟨calls, res, causes, rfl, hq, hc, -⟩ := h
  rw [List.countP_append, hq.countP_runner, List.countP_cons_of_neg (by simp [isRunner]),
    (quiet_causes hc).countP_runner]

theorem Stopped.closed {runID : Bytes} {tr : Calls} {out : RunOutcome}
    (h : Stopped runID tr out) : Closed runID tr out := by
  obtain ⟨calls, res, causes, rfl, hq, hc, -⟩ := h
  refine ⟨calls, res, causes, rfl, ?_, hc⟩
  rw [List.countP_append, hq.countP_finish, List.countP_cons_of_pos rfl,
    (quiet_causes hc).countP_finish]

theorem Stopped.faithful {runID : Bytes} {tr : Calls} {out : RunOutcome}
    (h : Stopped runID tr out) : Faithful tr out := by
  have hcount := h.countP_runner
  obtain ⟨-, -, -, -, -, -, hd⟩ := h
  refine ⟨fun spec result hmem => ?_, fun _ => hd⟩
  have := List.countP_eq_zero.1 hcount _ hmem
  simp [isRunner] at this

/-- **The runner is called at most once, and only behind the gate.** For every configuration that
`Parse` accepts, every request and every behaviour of the adapters: before the runner the run has
started its audit record for this very request, found the project, had its directory accepted, been
authorised and resolved the project's token, in this order, and the runner is given the project, the
token and the request unchanged. A run whose audit start succeeded closes its record exactly once,
with the record of its outcome; a run whose audit start failed makes no other call. -/
theorem runner_gated [Platform] {data : Bytes} {b : Broker} (hparse : Config.parse data = .ok b.cfg)
    {req : RunRequest} {tr : Calls} {out : RunOutcome} (h : Runs (b.run req) tr out) :
    tr.countP isRunner ≤ 1 ∧
      (∀ before spec result after, tr = before ++ ⟨.run spec, result⟩ :: after →
        ∃ runID, Gated b req runID before spec) ∧
      ((∃ e, tr = [⟨.start (startRecord req), .error e⟩]) ∨
        ∃ runID tr', tr = ⟨.start (startRecord req), .ok runID⟩ :: tr' ∧ Closed runID tr out) ∧
      Faithful tr out := by
  rcases run_cases h with
    ⟨e, rfl, hd, -⟩ | ⟨runID, tr', rfl, hs⟩ | ⟨runID, before, spec, result, res, hg, hq, rfl, hr⟩
  · refine ⟨by simp [isRunner], fun before spec result after htr => ?_, Or.inl ⟨e, rfl⟩, ?_⟩
    · have := congrArg (List.countP isRunner) htr
      simp [List.countP_cons, isRunner] at this
    · exact ⟨fun spec result hmem => by simp at hmem, fun _ => hd⟩
  · have hstart : Quiet [⟨.start (startRecord req), .ok runID⟩] := by
      simp [Quiet, isRunner, isFinish]
    have hs' := hs.prepend hstart
    have hcount := hs'.countP_runner
    refine ⟨Nat.le_trans (Nat.le_of_eq hcount) (Nat.zero_le 1), fun before spec result after htr =>
      ?_, Or.inr ⟨runID, tr', rfl, hs'.closed⟩, hs'.faithful⟩
    have hmem : ⟨.run spec, result⟩ ∈ [⟨.start (startRecord req), .ok runID⟩] ++ tr' := by
      rw [List.singleton_append, htr]
      simp
    have := List.countP_eq_zero.1 hcount _ hmem
    simp [isRunner] at this
  · have htail : ∀ e ∈ ([⟨.finish runID (finishRecord out), res⟩] : Calls), isRunner e = false := by
      simp [isRunner]
    refine ⟨?_, fun before' spec' result' after htr => ?_, Or.inr ?_, ?_, fun hzero => ?_⟩
    · rw [List.countP_append, hq.countP_runner]
      simp [List.countP_cons, isRunner]
    · obtain ⟨rfl, he, -⟩ := split_unique htr hq.not_runner htail rfl
      obtain ⟨hspec, -⟩ := Sigma.mk.inj he
      obtain rfl := Call.run.inj hspec
      exact ⟨runID, hg.gated (Config.accepted_of_parse hparse)⟩
    · obtain ⟨project, tok, dirCalls, appr, hbefore, -⟩ := hg
      refine ⟨runID, _, by rw [hbefore]; rfl, before ++ [⟨.run spec, result⟩], res, [], by simp, ?_,
        by simp⟩
      rw [List.countP_append, hq.countP_finish]
      simp [List.countP_cons, isFinish]
    · intro spec' result' hmem
      obtain ⟨before', after, htr⟩ := List.append_of_mem hmem
      obtain ⟨-, he, -⟩ := split_unique htr hq.not_runner htail rfl
      obtain ⟨hspec, hres⟩ := Sigma.mk.inj he
      obtain rfl := Call.run.inj hspec
      obtain rfl := eq_of_heq hres
      exact hr
    · rw [List.countP_append] at hzero
      simp [List.countP_cons, isRunner] at hzero

/-! A run that reaches the runner: an allowlisted command under the mode `never`. -/

section Witness

/-- A policy with one project. -/
def examplePolicy : Bytes := str "[token_source]
backend = \"secret-service\"

[[projects]]
alias = \"app\"
bws_project_id = \"proj\"
token_entry = \"entry\"
approval = \"never\"

[[projects.allow]]
argv = [\"git\", \"push\"]
"

def exampleProject : Project where
  projectAlias := str "app"
  bwsProjectID := str "proj"
  tokenEntry := str "entry"
  workingDir := []
  approval := Config.ApprovalNever
  allow := some [⟨[str "git", str "push"]⟩]

def exampleConfig : Config where
  runtime := ⟨[], [], []⟩
  tokenSource := ⟨Config.BackendSecretService, [], []⟩
  approvalSource := ⟨Config.ApprovalBackendKDialog, ⟨[], 0, 0⟩⟩
  projects := [exampleProject]

/-- The decoder on the example policy. -/
@[reducible] def examplePlatform : Platform where
  isPrint _ := false
  unmarshal data := if data = examplePolicy then .ok exampleConfig else .error []
  parseURL _ := none

def exampleRequest : RunRequest where
  project := str "app"
  workingDir := str "/srv/app"
  argv := [str "git", str "push"]
  stdin := none
  stdout := some 1
  stderr := some 2

/-- Adapters that all succeed. -/
def exampleAdapters : (c : Call) → c.Answer
  | .start _ => .ok (str "r1")
  | .evalSymlinks path => .ok path
  | .approve _ => (Decision.denied, none)
  | .approveCause => []
  | .resolve _ => .ok ⟨str "s3cr3t"⟩
  | .run _ => .ok ⟨0⟩
  | .finish _ _ => none

def exampleCalls : Calls :=
  ((@Broker.run examplePlatform.toUnicode ⟨exampleConfig, false⟩ exampleRequest).play
    exampleAdapters).1

theorem runner_gated_push :
    exampleCalls.countP isRunner = 1 ∧ exampleCalls.countP isRunner ≤ 1 := by
  refine ⟨by decide +kernel, ?_⟩
  have hparse : @Config.parse examplePlatform examplePolicy = .ok exampleConfig := by
    decide +kernel
  exact (@runner_gated examplePlatform examplePolicy ⟨exampleConfig, false⟩ hparse _ _ _
    (runs_play exampleAdapters _)).1

end Witness

end Broker

end SecretsBroker
