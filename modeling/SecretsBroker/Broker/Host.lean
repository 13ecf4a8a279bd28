import SecretsBroker.Broker.Gate
import SecretsBroker.Broker.Runner

/-!
# The broker over its runner

`Broker.Run` composed with `BWSRunner` and `OSRunner`: the call of the runner becomes the checks of
`BWSRunner.Run` and at most one command, whose fate the operating system answers. `run_cases` is the
shape of such a run. `audit_tells_start_iff` compares what the audit log says of a run with what
happened to the process.
-/

namespace SecretsBroker.Host

open Interaction

/-- The calls that are left: those to the other adapters, and the command. -/
inductive Call
  | adapter (c : Broker.Call)
  | exec (cmd : Cmd)

abbrev Call.Answer : Call → Type
  | .adapter c => c.Answer
  | .exec _ => Child

abbrev Program := Prog Call Call.Answer
abbrev Calls := Trace Call.Answer

/-- `OSRunner` over the operating system. -/
def osRunner : (c : Exec.Call) → Program c.Answer
  | .run cmd => Prog.ask (Call.exec cmd)

/-- The adapters of the broker, with `BWSRunner` for the runner. -/
def adapters (r : BWSRunner) : (c : Broker.Call) → Program c.Answer
  | .start rec => Prog.ask (Call.adapter (.start rec))
  | .evalSymlinks path => Prog.ask (Call.adapter (.evalSymlinks path))
  | .approve prompt => Prog.ask (Call.adapter (.approve prompt))
  | .approveCause => Prog.ask (Call.adapter .approveCause)
  | .resolve entry => Prog.ask (Call.adapter (.resolve entry))
  | .run spec => (r.run spec).interp osRunner
  | .finish runID rec => Prog.ask (Call.adapter (.finish runID rec))

/-- `Broker.Run` over `BWSRunner` and `OSRunner`. -/
def run [Unicode] (r : BWSRunner) (b : Broker) (req : RunRequest) : Program RunOutcome :=
  (b.run req).interp (adapters r)

/-- Calls of the broker that are passed on. -/
def lift (tr : Broker.Calls) : Calls := tr.map fun e => ⟨.adapter e.1, e.2⟩

/-- `piece` is what the runner does for `spec`, answering `result`: nothing, or one command. -/
def RunnerDid (r : BWSRunner) (spec : RunSpec) (result : Except Bytes RunResult) (piece : Calls) :
    Prop :=
  (∃ err, r.check spec = .error err ∧ piece = [] ∧ result = .error err) ∨
    (r.check spec = .ok () ∧
      ∃ child, piece = [⟨.exec (r.cmd spec), child⟩] ∧ result = BWSRunner.answer child)

/-! ## The shape of a run -/

theorem interprets_osRunner {cmd : Cmd} {child : Child} {tr : Calls}
    (h : Interprets osRunner [⟨.run cmd, child⟩] tr) : tr = [⟨.exec cmd, child⟩] := by
  cases h with
  | cons hp ht =>
    cases ht
    rw [runs_ask.1 hp]
    rfl

theorem runs_adapters_run {r : BWSRunner} {spec : RunSpec} {piece : Calls}
    {result : Except Bytes RunResult} (h : Runs (adapters r (.run spec)) piece result) :
    RunnerDid r spec result piece := by
  obtain ⟨tr, hr, hi⟩ := runs_interp h
  rcases BWSRunner.runs_run hr with ⟨err, hc, rfl, rfl⟩ | ⟨hc, child, rfl, rfl⟩
  · cases hi
    exact Or.inl ⟨err, hc, rfl, rfl⟩
  · exact Or.inr ⟨hc, child, interprets_osRunner hi, rfl⟩

theorem runs_adapters_of_not_runner {r : BWSRunner} {e : Event Broker.Call.Answer} {piece : Calls}
    (he : Broker.isRunner e = false) (h : Runs (adapters r e.1) piece e.2) :
    piece = [⟨.adapter e.1, e.2⟩] := by
  obtain ⟨c, res⟩ := e
  cases c with
  | run spec => simp [Broker.isRunner] at he
  | start rec => exact runs_ask.1 h
  | evalSymlinks path => exact runs_ask.1 h
  | approve prompt => exact runs_ask.1 h
  | approveCause => exact runs_ask.1 h
  | resolve entry => exact runs_ask.1 h
  | finish runID rec => exact runs_ask.1 h

theorem interprets_lift {r : BWSRunner} {tr : Broker.Calls} {tr' : Calls}
    (hq : ∀ e ∈ tr, Broker.isRunner e = false) (h : Interprets (adapters r) tr tr') :
    tr' = lift tr := by
  induction h with
  | nil => rfl
  | cons hp _ ih =>
    rw [runs_adapters_of_not_runner (hq _ (by simp)) hp, ih fun e he => hq e (by simp [he])]
    rfl

/-- **The shape of a run of the broker over its runner**: a denial without a command; or what the
broker did behind its gate, what the runner did, and the audit record of the outcome. -/
theorem run_cases [Unicode] {r : BWSRunner} {b : Broker} {req : RunRequest} {tr : Calls}
    {out : RunOutcome} (h : Runs (run r b req) tr out) :
    (∃ tr₀, tr = lift tr₀ ∧ out.denied = true ∧
        ∀ runID rec res, ⟨.finish runID rec, res⟩ ∈ tr₀ → rec = Broker.finishRecord out) ∨
      ∃ runID before spec result piece res,
        Broker.Passed Broker.Cleared b req runID before spec ∧ Broker.Quiet before ∧
        tr = lift before ++ piece ++
          [⟨.adapter (.finish runID (Broker.finishRecord out)), res⟩] ∧
        RunnerDid r spec result piece ∧ Broker.Reflects out result := by
  obtain ⟨tr₀, hrun, hi⟩ := runs_interp h
  rcases Broker.run_cases hrun with
    ⟨e, rfl, hd, -⟩ | ⟨runID, tr₁, rfl, hs⟩ | ⟨runID, before, spec, result, res, hp, hq, rfl, hr⟩
  · refine Or.inl ⟨_, interprets_lift (by simp [Broker.isRunner]) hi, hd, ?_⟩
    intro runID rec res hmem
    simp at hmem
  · have hstart : Broker.Quiet [⟨.start (Broker.startRecord req), .ok runID⟩] := by
      simp [Broker.Quiet, Broker.isRunner, Broker.isFinish]
    have hs' := hs.prepend hstart
    have hno : ∀ e ∈ [⟨.start (Broker.startRecord req), .ok runID⟩] ++ tr₁,
        Broker.isRunner e = false := by
      intro e he
      simpa using List.countP_eq_zero.1 hs'.countP_runner e he
    refine Or.inl ⟨_, interprets_lift hno hi, ?_⟩
    obtain ⟨calls, res, causes, htr, hq, hc, hd⟩ := hs'
    refine ⟨hd, fun runID' rec res' hmem => ?_⟩
    change _ ∈ [_] ++ tr₁ at hmem
    rw [htr, List.mem_append, List.mem_cons] at hmem
    rcases hmem with hmem | hmem | hmem
    · exact absurd (hq _ hmem).2 (by simp [Broker.isFinish])
    · have := (Sigma.mk.inj hmem).1
      exact (Broker.Call.finish.inj this).2
    · exact absurd (hc _ hmem) (by simp)
  · obtain ⟨tr₁, tr₂, rfl, h₁, h₂⟩ := hi.of_append
    cases h₂ with
    | cons hrunner h₃ =>
      have hlast := interprets_lift (by simp [Broker.isRunner]) h₃
      rw [interprets_lift hq.not_runner h₁, hlast]
      exact Or.inr ⟨runID, before, spec, result, _, res, hp, hq, by simp [lift],
        runs_adapters_run hrunner, hr⟩

/-! ## What the audit record says about the process -/

/-- A process was started. -/
def Started (tr : Calls) : Prop := ∃ cmd child, ⟨.exec cmd, child⟩ ∈ tr ∧ child.started = true

/-- The audit record says that the command was executed, with an exit code. -/
def RecordsExecuted (tr : Calls) : Prop :=
  ∃ runID exitCode res,
    ⟨.adapter (.finish runID ⟨str "executed", some exitCode⟩), res⟩ ∈ tr

/-- The audit record says that the request was denied. -/
def RecordsDenied (tr : Calls) : Prop :=
  ∃ runID reason exitCode res,
    ⟨.adapter (.finish runID ⟨str "denied:" ++ reason, exitCode⟩), res⟩ ∈ tr

/-- The audit record says whether a process was started, and a denial is recorded or returned only
when none was. -/
def AuditTellsStart (tr : Calls) (out : RunOutcome) : Prop :=
  (RecordsExecuted tr ↔ Started tr) ∧ (RecordsDenied tr ∨ out.denied = true → ¬ Started tr)

theorem not_exec_mem_lift {tr : Broker.Calls} {cmd : Cmd} {child : Child} :
    (⟨.exec cmd, child⟩ : Event Call.Answer) ∉ lift tr := by
  simp [lift]

theorem adapter_mem_lift {tr : Broker.Calls} {c : Broker.Call} {res : c.Answer} :
    (⟨.adapter c, res⟩ : Event Call.Answer) ∈ lift tr ↔ ⟨c, res⟩ ∈ tr := by
  simp only [lift, List.mem_map]
  constructor
  · rintro ⟨⟨c', res'⟩, hmem, heq⟩
    obtain ⟨hc, hres⟩ := Sigma.mk.inj heq
    obtain rfl := Call.adapter.inj hc
    obtain rfl := eq_of_heq hres
    exact hmem
  · exact fun hmem => ⟨_, hmem, rfl⟩

/-- The audit record of a run is the one of its outcome, and either no process was handed to the
operating system and the request was denied, or exactly one was and the outcome is its answer. -/
theorem run_audit [Unicode] {r : BWSRunner} {b : Broker} {req : RunRequest} {tr : Calls}
    {out : RunOutcome} (h : Runs (run r b req) tr out) :
    (∀ runID rec res, ⟨.adapter (.finish runID rec), res⟩ ∈ tr → rec = Broker.finishRecord out) ∧
      (((∀ cmd child, ⟨.exec cmd, child⟩ ∉ tr) ∧ out.denied = true) ∨
        ∃ cmd child, (∀ cmd' child', ⟨.exec cmd', child'⟩ ∈ tr ↔ cmd' = cmd ∧ child' = child) ∧
          Broker.Reflects out (BWSRunner.answer child) ∧
          ∃ runID res, ⟨.adapter (.finish runID (Broker.finishRecord out)), res⟩ ∈ tr) := by
  rcases run_cases h with
    ⟨tr₀, rfl, hd, hfin⟩ | ⟨runID, before, spec, result, piece, res, -, hq, rfl, hpiece, hr⟩
  · exact ⟨fun runID rec res hmem => hfin runID rec res (adapter_mem_lift.1 hmem),
      Or.inl ⟨fun cmd child => not_exec_mem_lift, hd⟩⟩
  · have hnofin : ∀ runID rec res, ⟨.adapter (.finish runID rec), res⟩ ∉ lift before := by
      intro runID rec res hmem
      exact absurd (hq _ (adapter_mem_lift.1 hmem)).2 (by simp [Broker.isFinish])
    rcases hpiece with ⟨err, -, rfl, rfl⟩ | ⟨-, child, rfl, rfl⟩
    · refine ⟨fun runID' rec res' hmem => ?_, Or.inl ⟨fun cmd child hmem => ?_, hr.1⟩⟩
      · simp only [List.append_nil, List.mem_append, hnofin, false_or, List.mem_singleton,
          Sigma.mk.injEq, Call.adapter.injEq, Broker.Call.finish.injEq] at hmem
        exact hmem.1.2
      · simp [not_exec_mem_lift] at hmem
    · refine ⟨fun runID' rec res' hmem => ?_,
        Or.inr ⟨r.cmd spec, child, fun cmd' child' => ?_, hr, runID, res, by simp⟩⟩
      · simp only [List.append_assoc, List.mem_append, hnofin, false_or, List.mem_cons,
          List.cons_append, List.nil_append, List.not_mem_nil, or_false,
          Sigma.mk.injEq, Call.adapter.injEq, Broker.Call.finish.injEq, reduceCtorEq,
          false_and] at hmem
        exact hmem.1.2
      · simp [not_exec_mem_lift]

/-- A record that says "executed" is not one that says "denied". -/
theorem finishRecord_executed_iff {out : RunOutcome} :
    (∃ exitCode, Broker.finishRecord out = ⟨str "executed", some exitCode⟩) ↔
      out.denied = false := by
  unfold Broker.finishRecord
  cases out.denied with
  | false => simp
  | true => simp [str, String.utf8EncodeChar]

theorem finishRecord_denied {out : RunOutcome} {reason : Bytes} {exitCode : Option ℤ}
    (h : Broker.finishRecord out = ⟨str "denied:" ++ reason, exitCode⟩) : out.denied = true := by
  unfold Broker.finishRecord at h
  cases hd : out.denied with
  | true => rfl
  | false => simp [hd, str, String.utf8EncodeChar] at h

/-- **The audit record tells a started process exactly when no error comes after a successful
exit.** A command that exits with 0 while the copying of its output fails or the context is
cancelled was started, and is recorded and returned as a denial. -/
theorem audit_tells_start_iff [Unicode] {r : BWSRunner} {b : Broker} {req : RunRequest} {tr : Calls}
    {out : RunOutcome} (h : Runs (run r b req) tr out) :
    AuditTellsStart tr out ↔ ∀ cmd child, ⟨.exec cmd, child⟩ ∈ tr → child.lateError = false := by
  obtain ⟨hfin, hcases⟩ := run_audit h
  have hexec : RecordsExecuted tr → out.denied = false := by
    rintro ⟨runID, exitCode, res, hmem⟩
    exact finishRecord_executed_iff.1 ⟨exitCode, (hfin _ _ _ hmem).symm⟩
  have hden : RecordsDenied tr → out.denied = true := by
    rintro ⟨runID, reason, exitCode, res, hmem⟩
    exact finishRecord_denied (hfin _ _ _ hmem).symm
  rcases hcases with ⟨hno, hd⟩ | ⟨cmd, child, honly, hr, runID, res, hmem⟩
  · have hns : ¬ Started tr := fun ⟨cmd, child, hmem, _⟩ => hno cmd child hmem
    have hne : ¬ RecordsExecuted tr := fun he => absurd (hexec he) (by simp [hd])
    refine ⟨fun _ cmd child hmem => absurd hmem (hno cmd child), fun _ => ⟨?_, fun _ => hns⟩⟩
    exact iff_of_false hne hns
  · have hst : Started tr ↔ child.started = true := by
      refine ⟨fun ⟨cmd', child', hm, hs⟩ => ?_,
        fun hs => ⟨cmd, child, (honly _ _).2 ⟨rfl, rfl⟩, hs⟩⟩
      rwa [← ((honly _ _).1 hm).2]
    have hlate : (∀ cmd child, ⟨.exec cmd, child⟩ ∈ tr → child.lateError = false) ↔
        child.lateError = false := by
      refine ⟨fun ha => ha cmd child ((honly _ _).2 ⟨rfl, rfl⟩), fun hl cmd' child' hm => ?_⟩
      rw [((honly _ _).1 hm).2, hl]
    rw [hlate]
    rcases BWSRunner.answer_cases child with ⟨err, ha, hs⟩ | ⟨result, ha, hs, hl⟩
    · -- an error is recorded as a denial, so the record is right when nothing was started
      rw [ha] at hr
      have hne : ¬ RecordsExecuted tr := fun he => absurd (hexec he) (by simp [hr.1])
      rw [← hs, AuditTellsStart, hst]
      constructor
      · intro ⟨_, hdn⟩
        simpa using hdn (Or.inr hr.1)
      · intro hs'
        simp [hs', hne]
    · rw [ha] at hr
      obtain ⟨exitCode, hrec⟩ := finishRecord_executed_iff.2 hr.1
      have he : RecordsExecuted tr := ⟨runID, exitCode, res, hrec ▸ hmem⟩
      refine iff_of_true ⟨iff_of_true he (hst.2 hs), ?_⟩ hl
      rintro (hd | hd)
      · exact absurd (hden hd) (by simp [hr.1])
      · simp [hr.1] at hd

section Witness

/-- Adapters that all succeed, and a command that ends as `child`. -/
def exampleAnswers (child : Child) : (c : Call) → c.Answer
  | .adapter c => Broker.exampleAdapters c
  | .exec _ => child

def exampleRunner : BWSRunner where
  bwsBinary := str "/usr/local/bin/bws"
  commandPath := str "/usr/bin"
  home := str "/var/lib/secrets-broker"

/-- The run of an allowlisted command that ends as `child`. -/
def exampleRun (child : Child) : Calls × RunOutcome :=
  (@run Broker.examplePlatform.toUnicode exampleRunner ⟨Broker.exampleConfig, false⟩
    Broker.exampleRequest).play (exampleAnswers child)

/-- A command that exits with 3 is recorded as executed. -/
theorem audit_tells_start_exit :
    AuditTellsStart (exampleRun (.ended (.code 3) none none)).1
      (exampleRun (.ended (.code 3) none none)).2 := by
  refine (@audit_tells_start_iff Broker.examplePlatform.toUnicode exampleRunner
    ⟨Broker.exampleConfig, false⟩ Broker.exampleRequest _ _ (runs_play _ _)).2 ?_
  have : ∀ e ∈ (exampleRun (.ended (.code 3) none none)).1,
      (match e with | ⟨.exec _, child⟩ => child.lateError | _ => false) = false := by
    decide +kernel
  exact fun cmd child hmem => this _ hmem

/-- A command that exited with 0 while its output could not be copied: it was started, and both the
audit record and the outcome say that the request was denied because the runner could not start. -/
theorem copy_error_recorded_as_denied :
    ∃ tr out, Runs (@run Broker.examplePlatform.toUnicode exampleRunner
        ⟨Broker.exampleConfig, false⟩ Broker.exampleRequest) tr out ∧
      Started tr ∧ RecordsDenied tr ∧ out.denied = true ∧ out.reason = some .runnerStartFailed ∧
      ¬ AuditTellsStart tr out := by
  let child : Child := .ended (.code 0) (some (str "short write")) none
  have hstarted : Started (exampleRun child).1 :=
    ⟨exampleRunner.cmd (Broker.runSpec Broker.exampleProject Broker.exampleRequest ⟨str "s3cr3t"⟩),
      child, List.mem_of_getElem? (i := 2) rfl, rfl⟩
  have hdenied : RecordsDenied (exampleRun child).1 :=
    ⟨str "r1", Reason.runnerStartFailed.text, none, none, List.mem_of_getElem? (i := 3) rfl⟩
  refine ⟨_, _, runs_play (exampleAnswers child) _, hstarted, hdenied, rfl, rfl, ?_⟩
  exact fun htells => htells.2 (Or.inl hdenied) hstarted

end Witness

end SecretsBroker.Host
