import SecretsBroker.Broker.Gate
import SecretsBroker.Worker.Frames

/-!
# The preflight

`DryRun` resolves the policy decision for a command without the approver, the token or the runner;
`run --dry-run` prints a label that it reads off the worker's result. It is written separately from
`Run`. `preflight_agrees` says that the two agree, while the file system stays as it is and the
audit log can be written: the verdict of `DryRun` says which calls `Run` makes, and the label on the
command line is that verdict.
-/

namespace SecretsBroker

open Interaction

/-- `DryRunResult` -/
structure DryRunResult where
  verdict : Verdict
  reason : Bytes
  deriving DecidableEq

/-- The switch of `DryRun` over the verdict of the project. -/
def Project.dryVerdict [Unicode] (p : Project) (argv : List Bytes) : DryRunResult :=
  match p.decide argv with
  | .allow => ⟨.allow, str "allowlisted"⟩
  | .prompt =>
    ⟨.prompt, str "would prompt for approval (project approval=" ++ quote p.approval ++ str ")"⟩
  | .deny => ⟨.deny, str "not allowlisted and project approval=" ++ quote p.approval⟩

namespace Broker

/-- `DryRun` -/
def dryRun [Unicode] (b : Broker) (project workingDir : Bytes) (argv : List Bytes) :
    Program DryRunResult := do
  match b.cfg.project project with
  | none => pure ⟨.deny, str "unknown project"⟩
  | some p =>
    if p.workingDir ≠ [] then
      if ← sameWorkingDir p.workingDir workingDir then pure (p.dryVerdict argv)
      else pure ⟨.deny, str "working directory not allowed"⟩
    else pure (p.dryVerdict argv)

end Broker

/-! ## The worker's result and the label -/

/-- What `Serve` sends for a dry run. -/
def dryRunResult (dry : DryRunResult) : Worker.Result :=
  match dry.verdict with
  | .allow => ⟨false, dry.reason, [], 0⟩
  | .prompt => ⟨false, dry.reason, [], 0⟩
  | .deny => ⟨true, dry.reason, [], 125⟩

/-- The label that the command line prints for a result. -/
def dryRunLabel (r : Worker.Result) : Bytes :=
  if r.denied then str "deny"
  else if r.reason ≠ str "allowlisted" then str "prompt" else str "allow"

/-- What the command line prints for a dry run. -/
def dryRunLine (r : Worker.Result) : Bytes := dryRunLabel r ++ str ": " ++ r.reason ++ str "\n"

def Verdict.label : Verdict → Bytes
  | .deny => str "deny"
  | .allow => str "allow"
  | .prompt => str "prompt"

/-! ## A fixed file system -/

namespace Broker

/-- All paths of a run are resolved as `fs` does. -/
def Resolves (fs : Bytes → Except Bytes Bytes) (tr : Calls) : Prop :=
  ∀ path res, ⟨.evalSymlinks path, res⟩ ∈ tr → res = fs path

/-- The audit log takes the start record. -/
def LogStarts (tr : Calls) : Prop := ∀ rec res, ⟨.start rec, res⟩ ∈ tr → ∃ runID, res = .ok runID

/-- The directory check in a fixed file system. -/
def sameDir (fs : Bytes → Except Bytes Bytes) (allowed requested : Bytes) : Bool :=
  if requested = [] then false
  else
    match fs allowed, fs requested with
    | .ok allowedPath, .ok requestedPath => Path.clean allowedPath == Path.clean requestedPath
    | _, _ => false

theorem Resolves.left {fs : Bytes → Except Bytes Bytes} {tr₁ tr₂ : Calls}
    (h : Resolves fs (tr₁ ++ tr₂)) : Resolves fs tr₁ :=
  fun path res hmem => h path res (List.mem_append_left _ hmem)

theorem runs_sameDir {fs : Bytes → Except Bytes Bytes} {allowed requested : Bytes} {tr : Calls}
    {ok : Bool} (h : Runs (sameWorkingDir allowed requested) tr ok) (hfs : Resolves fs tr) :
    ok = sameDir fs allowed requested := by
  unfold sameWorkingDir at h
  unfold sameDir
  split at h
  · next hnil =>
    obtain ⟨-, rfl⟩ := runs_pure.1 h
    rw [if_pos hnil]
  · next hne =>
    rw [if_neg hne]
    obtain ⟨r, tr₁, rfl, h₁⟩ := runs_ask_bind.1 h
    have hr : r = fs allowed := hfs allowed r (by simp)
    cases r with
    | error e =>
      obtain ⟨rfl, rfl⟩ := runs_pure.1 h₁
      simp [← hr]
    | ok allowedPath =>
      obtain ⟨r, tr₂, rfl, h₂⟩ := runs_ask_bind.1 h₁
      have hr' : r = fs requested := hfs requested r (by simp)
      cases r with
      | error e =>
        obtain ⟨rfl, rfl⟩ := runs_pure.1 h₂
        simp [← hr, ← hr']
      | ok requestedPath =>
        obtain ⟨rfl, rfl⟩ := runs_pure.1 h₂
        simp [← hr, ← hr']

/-- The directory of a project admits a request. -/
def dirAllowed (fs : Bytes → Except Bytes Bytes) (p : Project) (workingDir : Bytes) : Bool :=
  p.workingDir = [] || sameDir fs p.workingDir workingDir

/-- Both `Run` and `DryRun` go on after the directory check, or stop there. -/
theorem runs_checkDir {α : Type} {fs : Bytes → Except Bytes Bytes} {p : Project}
    {workingDir : Bytes} {go stop : Program α} {tr : Calls} {out : α}
    (h : Runs (if p.workingDir ≠ [] then do
      if ← sameWorkingDir p.workingDir workingDir then go else stop else go) tr out)
    (hfs : Resolves fs tr) :
    ∃ dirCalls rest, tr = dirCalls ++ rest ∧ (∀ e ∈ dirCalls, e.1 matches .evalSymlinks _) ∧
      Runs (if dirAllowed fs p workingDir then go else stop) rest out := by
  split at h
  · next hdir =>
    obtain ⟨dirCalls, rest, ok, rfl, hcheck, hgo⟩ := runs_bind.1 h
    have hok := runs_sameDir hcheck hfs.left
    refine ⟨dirCalls, rest, rfl, runs_sameWorkingDir hcheck, ?_⟩
    have hallowed : dirAllowed fs p workingDir = ok := by simp [dirAllowed, hdir, hok]
    rw [hallowed]
    exact hgo
  · next hdir =>
    refine ⟨[], tr, rfl, by simp, ?_⟩
    have hallowed : dirAllowed fs p workingDir = true := by simp [dirAllowed, not_not.1 hdir]
    rw [hallowed]
    exact h

/-! ## What `Run` does after each verdict -/

/-- A call of the approver. -/
def isApprove (e : Event Call.Answer) : Bool := e.1 matches .approve _

/-- A call of the token resolver. -/
def isResolve (e : Event Call.Answer) : Bool := e.1 matches .resolve _

/-- A run that calls neither the approver nor the resolver nor the runner. -/
def Untouched (tr : Calls) : Prop :=
  ∀ e ∈ tr, isApprove e = false ∧ isResolve e = false ∧ isRunner e = false

/-- The reason of a dry run that belongs to a reason of `Run`. -/
def Explains [Unicode] (text : Bytes) : Reason → Prop
  | .unknownProject => text = str "unknown project"
  | .workingDirectoryNotAllowed => text = str "working directory not allowed"
  | .notAllowlisted =>
    ∃ approval, text = str "not allowlisted and project approval=" ++ quote approval
  | _ => False

/-- A run in which the request is denied before anything is asked, for the reason of `dry`. -/
def DeniedEarly [Unicode] (dry : DryRunResult) (tr : Calls) (out : RunOutcome) : Prop :=
  out.denied = true ∧ Untouched tr ∧ ∃ reason, out.reason = some reason ∧ Explains dry.reason reason

/-- What a run does that the preflight result `dry` foretells. -/
def Follows [Unicode] (dry : DryRunResult) (tr : Calls) (out : RunOutcome) : Prop :=
  match dry.verdict with
  | .deny => DeniedEarly dry tr out
  | .prompt => ∃ e ∈ tr, isApprove e = true
  | .allow => (∃ e ∈ tr, isResolve e = true) ∧ ∀ e ∈ tr, isApprove e = false

theorem untouched_of_evalSymlinks {tr : Calls} (h : ∀ e ∈ tr, e.1 matches .evalSymlinks _) :
    Untouched tr := by
  rintro ⟨c, res⟩ hmem
  have hc := h _ hmem
  cases c <;> simp_all [isApprove, isResolve, isRunner]

theorem untouched_deny {runID : Bytes} {reason : Reason} {tr : Calls} {out : RunOutcome}
    (h : Runs (deny runID reason) tr out) :
    out.denied = true ∧ Untouched tr ∧ out.reason = some reason := by
  obtain ⟨res, rfl, hdenied, hreason⟩ := runs_deny h
  refine ⟨hdenied, ?_, hreason⟩
  simp [Untouched, isApprove, isResolve, isRunner]

theorem deniedEarly_of_deny [Unicode] {dry : DryRunResult} {runID : Bytes} {reason : Reason}
    {tr : Calls} {out : RunOutcome} (h : Runs (deny runID reason) tr out)
    (hreason : Explains dry.reason reason) : DeniedEarly dry tr out := by
  obtain ⟨hdenied, huntouched, hout⟩ := untouched_deny h
  exact ⟨hdenied, huntouched, reason, hout, hreason⟩

theorem execute_resolves {runID : Bytes} {project : Project} {req : RunRequest} {tr : Calls}
    {out : RunOutcome} (h : Runs (execute runID project req) tr out) :
    (∃ e ∈ tr, isResolve e = true) ∧ ∀ e ∈ tr, isApprove e = false := by
  rcases runs_execute h with ⟨e, res, rfl, -⟩ | ⟨tok, result, res, rfl, -⟩
  · simp [isResolve, isApprove]
  · simp [isResolve, isApprove]

/-- Calls before the decision that ask no one do not change what a run does. -/
theorem Follows.prepend [Unicode] {dry : DryRunResult} {pre tr : Calls} {out : RunOutcome}
    (hpre : Untouched pre) (h : Follows dry tr out) : Follows dry (pre ++ tr) out := by
  unfold Follows at h ⊢
  cases hv : dry.verdict with
  | deny =>
    rw [hv] at h
    obtain ⟨hdenied, huntouched, hreason⟩ := h
    refine ⟨hdenied, ?_, hreason⟩
    intro e he
    rcases List.mem_append.1 he with he | he
    · exact hpre e he
    · exact huntouched e he
  | prompt =>
    rw [hv] at h
    obtain ⟨e, he, happrove⟩ := h
    exact ⟨e, List.mem_append_right _ he, happrove⟩
  | allow =>
    rw [hv] at h
    obtain ⟨⟨e, he, hresolve⟩, hnone⟩ := h
    refine ⟨⟨e, List.mem_append_right _ he, hresolve⟩, ?_⟩
    intro e' he'
    rcases List.mem_append.1 he' with he' | he'
    · exact (hpre e' he').1
    · exact hnone e' he'

/-! ## The two agree -/

/-- The result of a dry run in a fixed file system. -/
def preflight [Unicode] (b : Broker) (fs : Bytes → Except Bytes Bytes) (project workingDir : Bytes)
    (argv : List Bytes) : DryRunResult :=
  match b.cfg.project project with
  | none => ⟨.deny, str "unknown project"⟩
  | some p =>
    if dirAllowed fs p workingDir then p.dryVerdict argv
    else ⟨.deny, str "working directory not allowed"⟩

variable [Unicode] {b : Broker} {fs : Bytes → Except Bytes Bytes}

theorem runs_dryRun {project workingDir : Bytes} {argv : List Bytes} {tr : Calls}
    {dry : DryRunResult} (h : Runs (b.dryRun project workingDir argv) tr dry)
    (hfs : Resolves fs tr) : dry = b.preflight fs project workingDir argv := by
  unfold dryRun at h
  unfold preflight
  split at h
  · obtain ⟨-, rfl⟩ := runs_pure.1 h
    rfl
  · next p hp =>
    obtain ⟨dirCalls, rest, rfl, -, hgo⟩ := runs_checkDir h hfs
    split_ifs at hgo with hdir
    · obtain ⟨-, rfl⟩ := runs_pure.1 hgo
      simp only [hdir, if_true]
    · obtain ⟨-, rfl⟩ := runs_pure.1 hgo
      simp only [hdir, Bool.false_eq_true, if_false]

theorem authorise_follows {runID : Bytes} {project : Project} {req : RunRequest} {tr : Calls}
    {out : RunOutcome} (h : Runs (b.authorise runID project req) tr out) :
    Follows (project.dryVerdict req.argv) tr out := by
  unfold authorise at h
  unfold Project.dryVerdict
  split at h
  · next hdecide =>
    simp only [hdecide]
    exact deniedEarly_of_deny h ⟨_, rfl⟩
  · next hdecide =>
    simp only [hdecide]
    obtain ⟨⟨decision, err⟩, tr', rfl, -⟩ := runs_ask_bind.1 h
    exact ⟨_, List.mem_cons_self, rfl⟩
  · next hdecide =>
    simp only [hdecide]
    exact execute_resolves h

theorem run_follows {req : RunRequest} {tr : Calls} {out : RunOutcome} (h : Runs (b.run req) tr out)
    (hfs : Resolves fs tr) (hlog : LogStarts tr) :
    Follows (b.preflight fs req.project req.workingDir req.argv) tr out := by
  obtain ⟨r, tr', rfl, hrun⟩ := runs_ask_bind.1 h
  obtain ⟨runID, rfl⟩ := hlog _ r List.mem_cons_self
  have hstart : Untouched [⟨.start ⟨req.project, req.workingDir, req.argv⟩, .ok runID⟩] := by
    simp [Untouched, isApprove, isResolve, isRunner]
  have hfs' : Resolves fs tr' := fun path res hmem => hfs path res (List.mem_cons_of_mem _ hmem)
  apply Follows.prepend hstart
  unfold preflight
  simp only at hrun
  cases hp : b.cfg.project req.project with
  | none =>
    rw [hp] at hrun
    exact deniedEarly_of_deny hrun rfl
  | some p =>
    rw [hp] at hrun
    obtain ⟨dirCalls, rest, rfl, hdir, hgo⟩ := runs_checkDir hrun hfs'
    apply Follows.prepend (untouched_of_evalSymlinks hdir)
    simp only
    split_ifs at hgo ⊢ with hallowed
    · exact authorise_follows hgo
    · exact deniedEarly_of_deny hgo rfl

/-! ### The label -/

/-- The reasons of a dry run are valid UTF-8, and only the allowed commands are called
allowlisted. -/
structure WellExplained (dry : DryRunResult) : Prop where
  valid : Utf8.Valid dry.reason
  allow : dry.verdict = .allow → dry.reason = str "allowlisted"
  prompt : dry.verdict = .prompt → dry.reason ≠ str "allowlisted"

omit [Unicode] in
theorem wellExplained_deny {text : Bytes} (h : Utf8.Valid text) : WellExplained ⟨.deny, text⟩ :=
  ⟨h, fun h => by simp at h, fun h => by simp at h⟩

theorem wellExplained_dryVerdict (p : Project) (argv : List Bytes) :
    WellExplained (p.dryVerdict argv) := by
  unfold Project.dryVerdict
  split
  · exact ⟨Utf8.valid_str _, fun _ => rfl, fun h => by simp at h⟩
  · refine ⟨?_, fun h => by simp at h, fun _ heq => ?_⟩
    · exact Utf8.valid_append (Utf8.valid_append (Utf8.valid_str _) (valid_quote _))
        (Utf8.valid_str _)
    · -- the first letters differ
      have hhead := congrArg List.head? heq
      have hw : (str "would prompt for approval (project approval=").head? = some 0x77 := by
        decide +kernel
      have ha : (str "allowlisted").head? = some 0x61 := by decide +kernel
      rw [List.append_assoc, List.head?_append, hw, ha] at hhead
      simp at hhead
  · exact wellExplained_deny (Utf8.valid_append (Utf8.valid_str _) (valid_quote _))

theorem wellExplained_preflight (project workingDir : Bytes) (argv : List Bytes) :
    WellExplained (b.preflight fs project workingDir argv) := by
  unfold preflight
  split
  · exact wellExplained_deny (Utf8.valid_str _)
  · split_ifs
    · exact wellExplained_dryVerdict _ _
    · exact wellExplained_deny (Utf8.valid_str _)

omit [Unicode] in
theorem WellExplained.label {dry : DryRunResult} (h : WellExplained dry) :
    dryRunLabel (dryRunResult dry) = dry.verdict.label := by
  cases hv : dry.verdict with
  | deny => simp [dryRunLabel, dryRunResult, hv, Verdict.label]
  | allow => simp [dryRunLabel, dryRunResult, hv, Verdict.label, h.allow hv]
  | prompt => simp [dryRunLabel, dryRunResult, hv, Verdict.label, h.prompt hv]

omit [Unicode] in
/-- The frame that the worker sends for a dry run is read as the same result. -/
theorem WellExplained.frame {dry : DryRunResult} (h : WellExplained dry) :
    Worker.decodeFrames ⟨(Worker.Frame.ofResult (dryRunResult dry)).encode, none⟩ =
      ([Worker.Frame.ofResult (dryRunResult dry)], .eof) := by
  have hvalid : (dryRunResult dry).Valid := by
    refine ⟨?_, ?_⟩ <;> unfold dryRunResult <;> split
    all_goals first | exact h.valid | exact Utf8.valid_str ""
  have hframe := Worker.decodeFrames_encode (Worker.readsBack_ofResult hvalid) [] none
  rw [List.append_nil] at hframe
  rw [hframe]
  rfl

/-- **The preflight agrees with execution.** Let `dry` be the result of a dry run and `out` the
outcome of a run of the same request, with the same file system and an audit log that can be
written. The verdict is `deny` exactly when the run denies the request before it asks the approver,
the resolver or the runner, and then for the same reason; it is `prompt` exactly when the run asks
the approver, and `allow` exactly when it resolves the token without asking the approver. The
worker's result reaches the command line unchanged, and the label there is the verdict. -/
theorem preflight_agrees {req : RunRequest} {tr₀ tr : Calls} {dry : DryRunResult} {out : RunOutcome}
    (hdry : Runs (b.dryRun req.project req.workingDir req.argv) tr₀ dry) (hfs₀ : Resolves fs tr₀)
    (hrun : Runs (b.run req) tr out) (hfs : Resolves fs tr) (hlog : LogStarts tr) :
    (dry.verdict = .deny ↔ DeniedEarly dry tr out) ∧
    (dry.verdict = .prompt ↔ ∃ e ∈ tr, isApprove e = true) ∧
    (dry.verdict = .allow ↔
      (∃ e ∈ tr, isResolve e = true) ∧ ∀ e ∈ tr, isApprove e = false) ∧
    Worker.decodeFrames ⟨(Worker.Frame.ofResult (dryRunResult dry)).encode, none⟩ =
      ([Worker.Frame.ofResult (dryRunResult dry)], .eof) ∧
    dryRunLabel (dryRunResult dry) = dry.verdict.label := by
  obtain rfl := runs_dryRun hdry hfs₀
  have hfollows := run_follows hrun hfs hlog
  have hexpl : WellExplained (b.preflight fs req.project req.workingDir req.argv) :=
    wellExplained_preflight _ _ _
  refine and_assoc.1 (and_assoc.1 ⟨?_, hexpl.frame, hexpl.label⟩)
  generalize b.preflight fs req.project req.workingDir req.argv = dry at hfollows
  -- the three behaviours exclude each other
  have hearly : DeniedEarly dry tr out →
      (¬ ∃ e ∈ tr, isApprove e = true) ∧ ¬ ∃ e ∈ tr, isResolve e = true := by
    rintro ⟨-, huntouched, -⟩
    refine ⟨?_, ?_⟩
    · rintro ⟨e, he, happrove⟩
      exact absurd happrove (by simp [(huntouched e he).1])
    · rintro ⟨e, he, hresolve⟩
      exact absurd hresolve (by simp [(huntouched e he).2.1])
  have hnone : (∀ e ∈ tr, isApprove e = false) ↔ ¬ ∃ e ∈ tr, isApprove e = true := by
    simp only [not_exists, not_and, Bool.not_eq_true]
  rw [hnone]
  unfold Follows at hfollows
  cases hv : dry.verdict with
  | deny =>
    simp only [hv] at hfollows
    obtain ⟨hnoApprove, hnoResolve⟩ := hearly hfollows
    simp [hfollows, hnoApprove, hnoResolve]
  | prompt =>
    simp only [hv] at hfollows
    have hnot : ¬ DeniedEarly dry tr out := fun h => (hearly h).1 hfollows
    simp [hfollows, hnot]
  | allow =>
    simp only [hv, hnone] at hfollows
    have hnot : ¬ DeniedEarly dry tr out := fun h => (hearly h).2 hfollows.1
    simp [hfollows, hnot]

omit [Unicode] in
/-- The allowlisted command of the example policy: the preflight allows it, and the run resolves the
token without asking. -/
theorem preflight_agrees_push :
    (∃ e ∈ exampleCalls, isResolve e = true) ∧ ∀ e ∈ exampleCalls, isApprove e = false := by
  have hdry : ((@Broker.dryRun examplePlatform.toUnicode ⟨exampleConfig, false⟩
      exampleRequest.project
      exampleRequest.workingDir exampleRequest.argv).play exampleAdapters).2.verdict = .allow := by
    decide +kernel
  have hfs : ∀ {α : Type} (p : Program α), Resolves Except.ok (p.play exampleAdapters).1 :=
    fun p path res hmem => mem_play hmem
  have hlog : ∀ p : Program RunOutcome, LogStarts (p.play exampleAdapters).1 :=
    fun p rec res hmem => ⟨str "r1", mem_play hmem⟩
  exact ((@preflight_agrees examplePlatform.toUnicode ⟨exampleConfig, false⟩ Except.ok
    exampleRequest
    _ _ _ _ (runs_play exampleAdapters _) (hfs _) (runs_play exampleAdapters _) (hfs _)
    (hlog _)).2.2.1).1 hdry

end Broker

end SecretsBroker
