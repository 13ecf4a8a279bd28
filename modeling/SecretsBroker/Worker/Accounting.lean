import SecretsBroker.Worker.Session

/-!
# What a session calls, records and reports

The rules for the calls of a session (`Only`), of the broker first and then of what `Serve` does
around it; and the account that a session gives of itself, to the audit log and to its caller.

`session_accounted`: the audit log is told the same as the caller, exactly once.
-/

namespace SecretsBroker

open Interaction

/-! ## The calls of the broker -/

namespace Broker

/-- A call that opens an audit record. -/
def isStart (c : Call) : Bool := c matches .start _

/-- A call of the audit log. -/
def isAudit : Call → Bool
  | .start _ | .finish _ _ => true
  | _ => false

theorem isStart_of_not_audit {c : Call} (h : isAudit c = false) : isStart c = false := by
  cases c <;> first | rfl | cases h

theorem isFinish_of_not_audit {e : Event Call.Answer} (h : isAudit e.1 = false) :
    isFinish e = false := by
  obtain ⟨c, r⟩ := e
  cases c <;> first | rfl | cases h

section Only

variable {P : Call → Prop} (hfinish : ∀ runID out, P (.finish runID (finishRecord out)))

include hfinish

theorem only_deny (runID : Bytes) (reason : Reason) : Only P (deny runID reason) :=
  only_ask_bind (hfinish runID { denied := true, reason := some reason }) fun _ => trivial

theorem only_execute (hresolve : ∀ entry, P (.resolve entry)) (hrun : ∀ spec, P (.run spec))
    (runID : Bytes) (project : Project) (req : RunRequest) :
    Only P (execute runID project req) := by
  refine only_ask_bind (hresolve _) fun tok => ?_
  cases tok with
  | error err => exact only_deny hfinish _ _
  | ok tok =>
    refine only_ask_bind (hrun _) fun result => ?_
    cases result with
    | error err => exact only_deny hfinish _ _
    | ok result =>
      exact only_ask_bind (hfinish runID { denied := false, exitCode := result.exitCode })
        fun _ => trivial

theorem only_rejected (hcause : P .approveCause) (b : Broker) (runID : Bytes) :
    Only P (b.rejected runID) := by
  refine only_bind (only_deny hfinish _ _) fun out => ?_
  split
  · refine only_ask_bind hcause fun cause => ?_
    split
    · exact only_ask_bind hcause fun _ => trivial
    · trivial
  · trivial

omit hfinish in
theorem only_sameWorkingDir (heval : ∀ path, P (.evalSymlinks path)) (allowed requested : Bytes) :
    Only P (sameWorkingDir allowed requested) := by
  unfold sameWorkingDir
  split
  · trivial
  · refine only_ask_bind (heval _) fun allowedPath => ?_
    cases allowedPath with
    | error err => trivial
    | ok allowedPath =>
      refine only_ask_bind (heval _) fun requestedPath => ?_
      cases requestedPath with
      | error err => trivial
      | ok requestedPath => trivial

omit hfinish in
theorem only_dryRun [Unicode] (heval : ∀ path, P (.evalSymlinks path)) (b : Broker)
    (project workingDir : Bytes) (argv : List Bytes) :
    Only P (b.dryRun project workingDir argv) := by
  unfold dryRun
  split
  · trivial
  · split
    · refine only_bind (only_sameWorkingDir heval _ _) fun ok => ?_
      cases ok <;> trivial
    · trivial

variable (hother : ∀ c, isAudit c = false → P c)

include hother

theorem only_authorise [Unicode] (b : Broker) (runID : Bytes) (project : Project)
    (req : RunRequest) : Only P (b.authorise runID project req) := by
  have hexecute : Only P (execute runID project req) :=
    only_execute hfinish (fun _ => hother _ rfl) (fun _ => hother _ rfl) _ _ _
  unfold authorise
  split
  · exact only_deny hfinish _ _
  · refine only_ask_bind (hother _ rfl) fun decision => ?_
    dsimp only
    split
    · exact only_rejected hfinish (hother _ rfl) _ _
    · exact hexecute
  · exact hexecute

/-- `Run` opens its audit record; what it does then closes it and opens no other. -/
theorem only_started [Unicode] (b : Broker) (req : RunRequest) :
    ∃ k, b.run req = .call (.start (startRecord req)) k ∧ ∀ res, Only P (k res) := by
  refine ⟨_, rfl, fun res => ?_⟩
  cases res with
  | error err => trivial
  | ok runID =>
    have hauthorise := fun project => only_authorise hfinish hother b runID project req
    simp only [Prog.bind]
    split
    · exact only_deny hfinish _ _
    · split
      · refine only_bind (only_sameWorkingDir (fun _ => hother _ rfl) _ _) fun ok => ?_
        cases ok with
        | true => exact hauthorise _
        | false => exact only_deny hfinish _ _
      · exact hauthorise _

end Only

/-- A run of the broker opens its audit record first, and opens no other. -/
theorem run_starts_once [Unicode] {b : Broker} {req : RunRequest} {tr : Calls}
    {out : RunOutcome} (h : Runs (b.run req) tr out) :
    ∃ res tr', tr = ⟨.start (startRecord req), res⟩ :: tr' ∧ ∀ e ∈ tr', isStart e.1 = false := by
  obtain ⟨k, hk, honly⟩ := only_started (P := fun c => isStart c = false) (fun _ _ => rfl)
    (fun _ hc => isStart_of_not_audit hc) b req
  rw [hk] at h
  obtain ⟨res, tr', rfl, h₁⟩ := runs_call.1 h
  exact ⟨res, tr', rfl, (honly res).of_runs h₁⟩

theorem not_start_sameWorkingDir {allowed requested : Bytes} {tr : Calls} {ok : Bool}
    (h : Runs (sameWorkingDir allowed requested) tr ok) : ∀ e ∈ tr, isStart e.1 = false :=
  (only_sameWorkingDir (P := fun c => isStart c = false) (fun _ => rfl) _ _).of_runs h

end Broker

namespace Worker.Session

/-! ## The calls of the other parts -/

section Only

variable {P : Call → Prop}

theorem only_encode (hwrite : ∀ f, P (.write f)) (enc : Encoder) (f : Frame) :
    Only P (encode enc f) := by
  unfold encode
  split
  · trivial
  · exact only_ask_bind (hwrite f) fun _ => trivial

theorem only_copyOutput (hwrite : ∀ f, P (.write f)) (output : List (Stream × Bytes))
    (enc : Encoder) : Only P (copyOutput output enc) := by
  induction output generalizing enc with
  | nil => trivial
  | cons c output ih =>
    refine only_bind (only_encode hwrite _ _) fun err => ?_
    cases err with
    | none => exact ih none
    | some err => trivial

theorem only_report (hwrite : ∀ f, P (.write f)) (out : RunOutcome) (enc : Encoder) :
    Only P (report out enc) := by
  unfold report
  split
  · exact only_bind (only_encode hwrite _ _) fun _ => only_encode hwrite _ _
  · exact only_encode hwrite _ _

theorem only_auditDenied {req : Request} {outcome : Bytes}
    (hstart : P (.adapter (.start ⟨req.project, req.workingDir, req.argv⟩)))
    (hfinish : ∀ runID, P (.adapter (.finish runID ⟨str "denied:" ++ outcome, none⟩))) :
    Only P (auditDenied req outcome) := by
  refine only_ask_bind hstart fun started => ?_
  cases started with
  | error err => trivial
  | ok runID => exact ⟨hfinish runID, fun _ => trivial⟩

end Only

/-! ## The audit log and the answer -/

/-- The calls that an auditor looks for: the two audit records and the command. -/
def isMilestone (e : Event Call.Answer) : Bool :=
  match e.1 with
  | .adapter (.start _) | .adapter (.finish _ _) | .exec _ => true
  | _ => false

def milestones (tr : Calls) : Calls := tr.filter isMilestone

/-- The frame that ends a session says the same as the record that closes it. -/
def Tells (rec : FinishRecord) (last : Frame) : Prop :=
  (∃ message outcome, last = Frame.ofError message ∧ rec = ⟨str "denied:" ++ outcome, none⟩ ∧
      outcome ∈ [str "invalid_request", str "config_unavailable"]) ∨
    ∃ r, last = Frame.ofResult r ∧
      ((r.denied = true ∧ rec = ⟨str "denied:" ++ r.reason, none⟩) ∨
        ∃ code, r.denied = false ∧ rec = ⟨str "executed", some code⟩ ∧
          r.exitCode = Int64.ofInt code)

/-- The caller is told that nothing was done. -/
def Refusal (last : Frame) : Prop :=
  (∃ message, last = Frame.ofError message) ∨ ∃ r, last = Frame.ofResult r ∧ r.denied = true

/-- The milestones of a session that ends with a frame. -/
inductive Accounted : Calls → Frame → Prop
  | unaudited (last : Frame) : Accounted [] last
  /-- The record could not be opened, and nothing is done. -/
  | unrecorded (rec : StartRecord) (err : Bytes) {last : Frame} (h : Refusal last) :
    Accounted [⟨.adapter (.start rec), .error err⟩] last
  | denied (start : StartRecord) (runID : Bytes) {rec : FinishRecord} (res : Option Bytes)
    {last : Frame} (h : Tells rec last) (hrefusal : Refusal last) :
    Accounted [⟨.adapter (.start start), .ok runID⟩, ⟨.adapter (.finish runID rec), res⟩] last
  | executed (start : StartRecord) (runID : Bytes) (cmd : Cmd) (spawned : Spawned)
    {rec : FinishRecord} (res : Option Bytes) {last : Frame} (h : Tells rec last) :
    Accounted [⟨.adapter (.start start), .ok runID⟩, ⟨.exec cmd, spawned⟩,
      ⟨.adapter (.finish runID rec), res⟩] last

/-- The writes are no milestones. -/
theorem milestones_silent (tr : Calls) : milestones (silent tr) = milestones tr := by
  rw [milestones, silent, List.filter_filter, milestones]
  apply List.filter_congr
  intro e _
  obtain ⟨c, r⟩ := e
  cases c <;> simp [isMilestone, isWrite]

theorem milestones_append (tr₁ tr₂ : Calls) :
    milestones (tr₁ ++ tr₂) = milestones tr₁ ++ milestones tr₂ := List.filter_append ..

theorem milestones_eq_nil {tr : Calls} (h : ∀ e ∈ tr, isMilestone e = false) :
    milestones tr = [] :=
  List.filter_eq_nil_iff.2 fun e he => by simp [h e he]

theorem milestones_of_writes {calls writes : Calls} (h : ∀ e ∈ writes, isWrite e = true) :
    milestones (calls ++ writes) = milestones (silent calls) := by
  have hnone : milestones writes = [] := by
    refine milestones_eq_nil fun e he => ?_
    obtain ⟨c, r⟩ := e
    have hwrite := h _ he
    cases c <;> simp_all [isWrite, isMilestone]
  rw [milestones_append, milestones_silent, hnone, List.append_nil]

/-! ### The audit calls of the broker -/

/-- Calls of the broker that open or close no audit record are no milestones. -/
theorem milestones_lift_eq_nil {tr : Broker.Calls} (hs : ∀ e ∈ tr, Broker.isStart e.1 = false)
    (hf : ∀ e ∈ tr, Broker.isFinish e = false) : milestones (lift tr) = [] := by
  refine milestones_eq_nil fun e he => ?_
  obtain ⟨⟨c, r⟩, hmem, rfl⟩ := List.mem_map.1 he
  have hs' := hs _ hmem
  have hf' := hf _ hmem
  cases c <;> simp_all [isMilestone, Broker.isStart, Broker.isFinish]

theorem milestones_stopped {runID : Bytes} {tr : Broker.Calls} {out : RunOutcome}
    (h : Broker.Stopped runID tr out) (hs : ∀ e ∈ tr, Broker.isStart e.1 = false) :
    ∃ res, milestones (lift tr) =
      [⟨.adapter (.finish runID (Broker.finishRecord out)), res⟩] := by
  obtain ⟨calls, res, causes, rfl, hquiet, hcauses, -⟩ := h
  refine ⟨res, ?_⟩
  have hcalls : milestones (lift calls) = [] :=
    milestones_lift_eq_nil (fun e he => hs e (by simp [he])) fun e he => (hquiet e he).2
  have hrest : milestones (lift causes) = [] :=
    milestones_lift_eq_nil (fun e he => hs e (by simp [he]))
      fun e he => (Broker.quiet_causes hcauses e he).2
  have hsplit : lift (calls ++ ⟨.finish runID (Broker.finishRecord out), res⟩ :: causes) =
      lift calls ++ [⟨.adapter (.finish runID (Broker.finishRecord out)), res⟩] ++ lift causes := by
    simp [lift]
  rw [hsplit, milestones_append, milestones_append, hcalls, hrest, List.nil_append,
    List.append_nil]
  rfl

/-- What was done before the runner was called, for an auditor. -/
theorem milestones_passed [Unicode] {b : Broker} {req : RunRequest} {runID : Bytes}
    {before : Broker.Calls} {spec : RunSpec}
    (h : Broker.Passed Broker.Cleared b req runID before spec) :
    milestones (lift before) = [⟨.adapter (.start (Broker.startRecord req)), .ok runID⟩] := by
  obtain ⟨project, tok, dirCalls, approvalCalls, rfl, -, hdir, hcleared, -⟩ := h
  have hdirs : milestones (lift dirCalls) = [] := by
    rcases hdir with ⟨-, rfl⟩ | ⟨-, hdir⟩
    · rfl
    · refine milestones_lift_eq_nil (Broker.not_start_sameWorkingDir hdir) fun e he => ?_
      exact (Broker.quiet_sameWorkingDir hdir e he).2
  have happroval : milestones (lift approvalCalls) = [] := by
    rcases hcleared with ⟨rfl, -⟩ | ⟨rfl, -⟩ <;> rfl
  have hsplit : lift (⟨.start (Broker.startRecord req), .ok runID⟩ ::
      (dirCalls ++ approvalCalls ++ [⟨.resolve project.tokenEntry, .ok tok⟩])) =
      [⟨.adapter (.start (Broker.startRecord req)), .ok runID⟩] ++ lift dirCalls ++
        lift approvalCalls ++ [⟨.adapter (.resolve project.tokenEntry), .ok tok⟩] := by
    simp [lift]
  rw [hsplit, milestones_append, milestones_append, milestones_append, hdirs, happroval]
  rfl

/-! ### What an outcome reports -/

/-- The cause that an outcome reports is one that the approver gave, and it tells whether the audit
record could be closed. -/
structure Reports (tr : Broker.Calls) (out : RunOutcome) : Prop where
  cause : out.approvalCause = [] ∨ ⟨.approveCause, out.approvalCause⟩ ∈ tr
  incomplete : ∀ runID rec res, ⟨.finish runID rec, res⟩ ∈ tr → out.auditIncomplete = res.isSome

theorem Reports.prepend {pre tr : Broker.Calls} {out : RunOutcome} (h : Reports tr out)
    (hpre : ∀ e ∈ pre, Broker.isFinish e = false) : Reports (pre ++ tr) out where
  cause := h.cause.imp_right fun hmem => List.mem_append_right _ hmem
  incomplete runID rec res hmem := by
    rcases List.mem_append.1 hmem with hmem | hmem
    · exact absurd (hpre _ hmem) (by simp [Broker.isFinish])
    · exact h.incomplete runID rec res hmem

theorem reports_deny {runID : Bytes} {reason : Reason} {tr : Broker.Calls} {out : RunOutcome}
    (h : Runs (Broker.deny runID reason) tr out) : Reports tr out ∧ out.approvalCause = [] := by
  obtain ⟨res, tr', rfl, h₁⟩ := runs_ask_bind.1 h
  obtain ⟨rfl, rfl⟩ := runs_pure.1 h₁
  refine ⟨⟨Or.inl rfl, fun runID' rec res' hmem => ?_⟩, rfl⟩
  simp only [List.mem_singleton, Sigma.mk.injEq, Broker.Call.finish.injEq] at hmem
  rw [eq_of_heq hmem.2]

theorem reports_execute {runID : Bytes} {project : Project} {req : RunRequest} {tr : Broker.Calls}
    {out : RunOutcome} (h : Runs (Broker.execute runID project req) tr out) : Reports tr out := by
  obtain ⟨r, tr₁, rfl, h₁⟩ := runs_ask_bind.1 h
  rw [← List.singleton_append]
  refine Reports.prepend ?_ (by simp [Broker.isFinish])
  cases r with
  | error e => exact (reports_deny h₁).1
  | ok tok =>
    obtain ⟨result, tr₂, rfl, h₂⟩ := runs_ask_bind.1 h₁
    rw [← List.singleton_append]
    refine Reports.prepend ?_ (by simp [Broker.isFinish])
    cases result with
    | error e => exact (reports_deny h₂).1
    | ok result =>
      obtain ⟨res, tr₃, rfl, h₃⟩ := runs_ask_bind.1 h₂
      obtain ⟨rfl, rfl⟩ := runs_pure.1 h₃
      refine ⟨Or.inl rfl, fun runID' rec res' hmem => ?_⟩
      simp only [List.mem_singleton, Sigma.mk.injEq, Broker.Call.finish.injEq] at hmem
      rw [eq_of_heq hmem.2]

theorem reports_rejected {b : Broker} {runID : Bytes} {tr : Broker.Calls} {out : RunOutcome}
    (h : Runs (b.rejected runID) tr out) : Reports tr out := by
  obtain ⟨tr₁, tr₂, out₁, rfl, h₁, h₂⟩ := runs_bind.1 h
  obtain ⟨hfirst, hnone⟩ := reports_deny h₁
  -- the questions about the cause close no record
  have hinc : ∀ causes : Broker.Calls, (∀ e ∈ causes, e.1 = .approveCause) →
      ∀ runID rec res, ⟨.finish runID rec, res⟩ ∈ tr₁ ++ causes →
        out₁.auditIncomplete = res.isSome := by
    intro causes hcauses runID rec res hmem
    rcases List.mem_append.1 hmem with hmem | hmem
    · exact hfirst.incomplete runID rec res hmem
    · exact absurd (hcauses _ hmem) (by simp)
  split at h₂
  · obtain ⟨cause, tr₃, rfl, h₃⟩ := runs_ask_bind.1 h₂
    split at h₃
    · obtain ⟨cause', tr₄, rfl, h₄⟩ := runs_ask_bind.1 h₃
      obtain ⟨rfl, rfl⟩ := runs_pure.1 h₄
      exact ⟨Or.inr (by simp), hinc _ (by simp)⟩
    · obtain ⟨rfl, rfl⟩ := runs_pure.1 h₃
      exact ⟨Or.inl hnone, hinc _ (by simp)⟩
  · obtain ⟨rfl, rfl⟩ := runs_pure.1 h₂
    exact ⟨Or.inl hnone, hinc _ (by simp)⟩

theorem reports_authorise [Unicode] {b : Broker} {runID : Bytes} {project : Project}
    {req : RunRequest} {tr : Broker.Calls} {out : RunOutcome}
    (h : Runs (b.authorise runID project req) tr out) : Reports tr out := by
  unfold Broker.authorise at h
  split at h
  · exact (reports_deny h).1
  · obtain ⟨⟨decision, err⟩, tr₁, rfl, h₁⟩ := runs_ask_bind.1 h
    rw [← List.singleton_append]
    refine Reports.prepend ?_ (by simp [Broker.isFinish])
    dsimp only at h₁
    split at h₁
    · exact reports_rejected h₁
    · exact reports_execute h₁
  · exact reports_execute h

theorem reports_run [Unicode] {b : Broker} {req : RunRequest} {tr : Broker.Calls}
    {out : RunOutcome} (h : Runs (b.run req) tr out) : Reports tr out := by
  obtain ⟨res, tr', rfl, h₁⟩ := runs_ask_bind.1 h
  rw [← List.singleton_append]
  refine Reports.prepend ?_ (by simp [Broker.isFinish])
  cases res with
  | error err =>
    obtain ⟨rfl, rfl⟩ := runs_pure.1 h₁
    exact ⟨Or.inl rfl, by simp⟩
  | ok runID =>
    cases hproj : b.cfg.project req.project with
    | none =>
      simp only [hproj] at h₁
      exact (reports_deny h₁).1
    | some project =>
      simp only [hproj] at h₁
      split at h₁
      · obtain ⟨tr₁, tr₂, ok, rfl, hdir, h₂⟩ := runs_bind.1 h₁
        refine Reports.prepend ?_ fun e he => (Broker.quiet_sameWorkingDir hdir e he).2
        cases ok with
        | true => exact reports_authorise h₂
        | false => exact (reports_deny h₂).1
      · exact reports_authorise h₁

/-- The approver explains a denial by one of its causes. -/
def Explained (tr : Calls) : Prop :=
  ∀ text, ⟨.adapter .approveCause, text⟩ ∈ tr → ∃ cause : Approval.Cause, text = cause.text

theorem adapter_mem_lift {tr : Broker.Calls} {c : Broker.Call} {res : c.Answer}
    (h : ⟨c, res⟩ ∈ tr) : (⟨.adapter c, res⟩ : Event Call.Answer) ∈ lift tr :=
  List.mem_map.2 ⟨_, h, rfl⟩

/-- The cause of a session's outcome was given by the approver of this session. -/
theorem Ran.cause_mem [Unicode] {cfg : Config} {req : Request} {calls : Calls}
    {output : List (Stream × Bytes)} {out : RunOutcome} (h : Ran cfg req calls output out) :
    out.approvalCause = [] ∨ ⟨.adapter .approveCause, out.approvalCause⟩ ∈ calls := by
  cases h with
  | stopped hrun hno => exact (reports_run hrun).cause.imp_right adapter_mem_lift
  | refused hrun hpassed hcheck hout =>
    refine (reports_run hrun).cause.imp_right fun hmem =>
      List.mem_append_left _ (adapter_mem_lift ?_)
    simpa using hmem
  | executed hrun hpassed hcheck hends hout =>
    refine (reports_run hrun).cause.imp_right fun hmem =>
      List.mem_append_left _ (adapter_mem_lift ?_)
    simpa using hmem

/-- The result of a session is text that the client reads back. -/
theorem Ran.valid_resultOf [Unicode] {cfg : Config} {req : Request} {calls : Calls}
    {output : List (Stream × Bytes)} {out : RunOutcome} (h : Ran cfg req calls output out)
    (hexp : Explained calls) : (resultOf out).Valid := by
  have hreason : ∀ reason : Option Reason, Utf8.Valid ((reason.map Reason.text).getD []) := by
    intro reason
    cases reason with
    | none => exact Utf8.valid_str ""
    | some reason => cases reason <;> exact Utf8.valid_str _
  refine ⟨hreason out.reason, ?_⟩
  change Utf8.Valid out.approvalCause
  rcases h.cause_mem with hnil | hmem
  · rw [hnil]
    exact Utf8.valid_str ""
  · obtain ⟨cause, hcause⟩ := hexp _ hmem
    rw [hcause]
    cases cause <;> exact Utf8.valid_str _

/-! ### Sessions -/

theorem closing_eq (out : RunOutcome) :
    ∃ warnings, closing out =
      warnings.map Frame.chunk ++ [Frame.ofResult (resultOf out)] ∧
      warnings = if out.auditIncomplete then [(.stderr, warning)] else [] := by
  refine ⟨_, ?_, rfl⟩
  unfold closing
  split <;> rfl

/-- The result of an outcome says what the record of the outcome says. -/
theorem tells_resultOf (out : RunOutcome) :
    Tells (Broker.finishRecord out) (Frame.ofResult (resultOf out)) := by
  refine Or.inr ⟨_, rfl, ?_⟩
  cases hd : out.denied with
  | true => exact Or.inl ⟨hd, by simp [Broker.finishRecord, resultOf, hd]⟩
  | false =>
    exact Or.inr ⟨out.exitCode, hd, by simp [Broker.finishRecord, hd], by simp [resultOf, hd]⟩

theorem refusal_resultOf {out : RunOutcome} (h : out.denied = true) :
    Refusal (Frame.ofResult (resultOf out)) := Or.inr ⟨_, rfl, h⟩

/-- A broker that does not call its runner denies the request. -/
theorem denied_of_not_runner [Unicode] {b : Broker} {req : RunRequest} {tr : Broker.Calls}
    {out : RunOutcome} (h : Runs (b.run req) tr out) (hno : ∀ e ∈ tr, Broker.isRunner e = false) :
    out.denied = true := by
  rcases Broker.run_cases h with ⟨err, -, hd, -⟩ | ⟨runID, tr₁, -, hs⟩ |
    ⟨runID, before, spec, result, res', -, -, rfl, -⟩
  · exact hd
  · obtain ⟨-, -, -, -, -, -, hd⟩ := hs
    exact hd
  · exact absurd (hno ⟨.run spec, result⟩ (by simp)) (by simp [Broker.isRunner])

theorem Ran.accounted [Unicode] {cfg : Config} {req : Request} {calls : Calls}
    {output : List (Stream × Bytes)} {out : RunOutcome} (h : Ran cfg req calls output out) :
    milestones calls ≠ [] ∧ Accounted (milestones calls) (Frame.ofResult (resultOf out)) := by
  cases h with
  | @stopped tr out hrun hno =>
    obtain ⟨res, tr', htr, hstarts⟩ := Broker.run_starts_once hrun
    have hd := denied_of_not_runner hrun hno
    rcases Broker.run_cases hrun with ⟨err, rfl, -⟩ | ⟨runID, tr₁, rfl, hs⟩ |
      ⟨runID, before, spec, result, res', -, -, rfl, -⟩
    · exact ⟨by simp [milestones, lift, isMilestone],
        .unrecorded _ err (refusal_resultOf hd)⟩
    · obtain ⟨-, rfl⟩ := List.cons.inj htr
      obtain ⟨res', hfinish⟩ := milestones_stopped hs hstarts
      have hall : milestones (lift (⟨.start (Broker.startRecord (runRequest req)), .ok runID⟩ ::
          tr₁)) = [⟨.adapter (.start (Broker.startRecord (runRequest req))), .ok runID⟩,
            ⟨.adapter (.finish runID (Broker.finishRecord out)), res'⟩] := by
        rw [← List.singleton_append, lift, List.map_append, milestones_append]
        exact congrArg _ hfinish
      rw [hall]
      exact ⟨by simp, .denied _ runID res' (tells_resultOf out) (refusal_resultOf hd)⟩
    · exact absurd (hno ⟨.run spec, result⟩ (by simp)) (by simp [Broker.isRunner])
  | @refused runID err before spec res out hrun hpassed hcheck hout =>
    rw [milestones_append, milestones_passed hpassed]
    exact ⟨by simp, .denied _ runID res (tells_resultOf out) (refusal_resultOf hout.1)⟩
  | @executed runID before spec spawned child res out hrun hpassed hcheck hends hout =>
    rw [milestones_append, milestones_passed hpassed]
    exact ⟨by simp, .executed _ runID _ spawned res (tells_resultOf out)⟩

theorem auditDenied_accounted {req : Request} {outcome message : Bytes} {tr : Calls}
    {auditErr : Option Bytes} (h : Runs (auditDenied req outcome) tr auditErr)
    (hout : outcome ∈ [str "invalid_request", str "config_unavailable"]) :
    milestones tr ≠ [] ∧ Accounted (milestones tr) (Frame.ofError message) := by
  have hrefusal : Refusal (Frame.ofError message) := Or.inl ⟨message, rfl⟩
  obtain ⟨r, tr₁, rfl, h₁⟩ := runs_ask_bind.1 h
  cases r with
  | error err =>
    obtain ⟨rfl, -⟩ := runs_pure.1 h₁
    exact ⟨by simp [milestones, isMilestone], .unrecorded _ err hrefusal⟩
  | ok runID =>
    obtain rfl := runs_ask.1 h₁
    exact ⟨by simp [milestones, isMilestone],
      .denied _ runID auditErr (Or.inl ⟨message, outcome, rfl, rfl, hout⟩) hrefusal⟩

/-- The session had no log, or was a dry run under a policy that could be loaded. -/
def Exempt [Platform] (s : Server) (tr : Calls) : Prop :=
  (∃ err, ⟨.openLog, some err⟩ ∈ tr) ∨
    ∃ input req cfg, ⟨.input, input⟩ ∈ tr ∧ decodeRequest input = .ok req ∧ req.dryRun = true ∧
      config s = .ok cfg

theorem Served.accounted [Platform] {s : Server} {calls : Calls} {output : List (Stream × Bytes)}
    {frames : List Frame} (h : Served s calls output frames) :
    ∃ warnings last, frames = warnings ++ [last] ∧ Accounted (milestones calls) last ∧
      (milestones calls = [] → Exempt s calls) := by
  cases h with
  | noLog err => exact ⟨[], _, rfl, .unaudited _, fun _ => Or.inl ⟨err, by simp⟩⟩
  | @refused input req outcome err audit auditErr hwhy haudit =>
    have hout : outcome ∈ [str "invalid_request", str "config_unavailable"] := by
      cases hwhy <;> simp
    obtain ⟨hne, hacc⟩ := auditDenied_accounted haudit hout
    exact ⟨[], _, rfl, hacc, fun he => absurd he hne⟩
  | @dryRun input req cfg tr dry hreq hcfg hdry hrun =>
    have hnil : milestones (lift tr) = [] := by
      have honly := (Broker.only_dryRun (P := fun c => Broker.isAudit c = false) (fun _ => rfl)
        _ _ _ _).of_runs hrun
      refine milestones_lift_eq_nil (fun e he => ?_) fun e he => ?_
      · exact Broker.isStart_of_not_audit (honly e he)
      · exact Broker.isFinish_of_not_audit (honly e he)
    refine ⟨[], _, rfl, ?_, fun _ => Or.inr ⟨input, req, cfg, by simp, hreq, hdry, hcfg⟩⟩
    have hall : milestones (⟨.openLog, none⟩ :: ⟨.input, input⟩ :: lift tr) = [] := hnil
    rw [hall]
    exact .unaudited _
  | @ran input req cfg calls output out hreq hcfg hdry hran =>
    obtain ⟨hne, hacc⟩ := hran.accounted
    obtain ⟨warnings, hclosing, -⟩ := closing_eq out
    exact ⟨_, _, hclosing, hacc, fun he => absurd he hne⟩

/-- What the commands of a session have written. -/
def outputs (tr : Calls) : List (Stream × Bytes) :=
  tr.flatMap fun e =>
    match e with
    | ⟨.exec _, spawned⟩ => spawned.output
    | _ => []

theorem outputs_append (tr₁ tr₂ : Calls) : outputs (tr₁ ++ tr₂) = outputs tr₁ ++ outputs tr₂ := by
  simp [outputs, List.flatMap_append]

theorem outputs_of_writes {calls writes : Calls} (h : ∀ e ∈ writes, isWrite e = true) :
    outputs (silent calls) = outputs (calls ++ writes) := by
  have hkeep : ∀ tr : Calls, outputs (silent tr) = outputs tr := by
    intro tr
    induction tr with
    | nil => rfl
    | cons e tr ih =>
      obtain ⟨c, r⟩ := e
      cases c with
      | exec cmd => exact congrArg (r.output ++ ·) ih
      | _ => exact ih
  have hnone : silent writes = [] := List.filter_eq_nil_iff.2 fun e he => by simp [h e he]
  rw [← hkeep (calls ++ writes), silent_append, hnone, List.append_nil]

theorem outputs_lift (tr : Broker.Calls) : outputs (lift tr) = [] := by
  simp [outputs, lift, List.flatMap_map]

theorem outputs_auditDenied {req : Request} {outcome : Bytes} {tr : Calls} {auditErr : Option Bytes}
    (h : Runs (auditDenied req outcome) tr auditErr) : outputs tr = [] := by
  obtain ⟨r, tr₁, rfl, h₁⟩ := runs_ask_bind.1 h
  cases r with
  | error err =>
    obtain ⟨rfl, -⟩ := runs_pure.1 h₁
    rfl
  | ok runID =>
    obtain rfl := runs_ask.1 h₁
    rfl

theorem Served.output_eq [Platform] {s : Server} {calls : Calls} {output : List (Stream × Bytes)}
    {frames : List Frame} (h : Served s calls output frames) : output = outputs calls := by
  cases h with
  | noLog err => rfl
  | refused hwhy haudit => exact (outputs_auditDenied haudit).symm
  | dryRun hreq hcfg hdry hrun => exact (outputs_lift _).symm
  | ran hreq hcfg hdry hran =>
    cases hran with
    | stopped hrun hno => exact (outputs_lift _).symm
    | refused hrun hpassed hcheck hout =>
      change [] = outputs (lift _ ++ _)
      rw [outputs_append, outputs_lift]
      rfl
    | executed hrun hpassed hcheck hends hout =>
      change _ = outputs (lift _ ++ _)
      rw [outputs_append, outputs_lift]
      simp [outputs]

theorem valid_dryRunResult [Unicode] {b : Broker} {project workingDir : Bytes} {argv : List Bytes}
    {tr : Broker.Calls} {dry : DryRunResult}
    (h : Runs (b.dryRun project workingDir argv) tr dry) : (dryRunResult dry).Valid := by
  have hverdict : ∀ p : Project, Utf8.Valid (p.dryVerdict argv).reason := by
    intro p
    unfold Project.dryVerdict
    split
    · exact Utf8.valid_str _
    · exact Utf8.valid_append (Utf8.valid_append (Utf8.valid_str _) (valid_quote _))
        (Utf8.valid_str _)
    · exact Utf8.valid_append (Utf8.valid_str _) (valid_quote _)
  have hreason : Utf8.Valid dry.reason := by
    unfold Broker.dryRun at h
    split at h
    · obtain ⟨-, rfl⟩ := runs_pure.1 h
      exact Utf8.valid_str _
    · split at h
      · obtain ⟨tr₁, tr₂, ok, -, -, h₂⟩ := runs_bind.1 h
        cases ok with
        | true =>
          obtain ⟨-, rfl⟩ := runs_pure.1 h₂
          exact hverdict _
        | false =>
          obtain ⟨-, rfl⟩ := runs_pure.1 h₂
          exact Utf8.valid_str _
      · obtain ⟨-, rfl⟩ := runs_pure.1 h
        exact hverdict _
  unfold dryRunResult
  split <;> exact ⟨hreason, Utf8.valid_str ""⟩

/-- A session ends with an error and nothing else, or with warnings and a result that the client
reads back. -/
theorem Served.ends [Platform] {s : Server} {calls : Calls} {output : List (Stream × Bytes)}
    {frames : List Frame} (h : Served s calls output frames) (hexp : Explained calls) :
    (∃ message, frames = [Frame.ofError message] ∧ output = []) ∨
      ∃ (warnings : List (Stream × Bytes)) (r : Result),
        frames = warnings.map Frame.chunk ++ [Frame.ofResult r] ∧ r.Valid ∧
        ∀ c ∈ warnings, c = (.stderr, warning) := by
  cases h with
  | noLog err => exact Or.inl ⟨err, rfl, rfl⟩
  | refused hwhy haudit => exact Or.inl ⟨_, rfl, rfl⟩
  | dryRun hreq hcfg hdry hrun => exact Or.inr ⟨[], _, rfl, valid_dryRunResult hrun, by simp⟩
  | ran hreq hcfg hdry hran =>
    obtain ⟨warnings, hclosing, hwarn⟩ := closing_eq _
    refine Or.inr ⟨warnings, _, hclosing, hran.valid_resultOf fun text htext => hexp text ?_, ?_⟩
    · simp [htext]
    · rw [hwarn]
      split <;> simp

/-- **The audit log is told the same as the caller, exactly once.** For every policy, every request
and every behaviour of the audit log, the adapters, the operating system and the session's output:
the audit calls and the command of a session are a start record that failed and nothing else; or a
start record and the finish record of its run id; or these two with one command between them. The
finish record says the same as the last frame that the encoder is given, with the same reason or the
same exit code; a session whose start record failed, or that executed no command, tells its caller
so. Only a session without a log and a dry run have no audit calls, and they execute nothing. -/
theorem session_accounted [Platform] {s : Server} {tr : Calls} {enc : Encoder}
    (h : Runs (serve s) tr enc) :
    ∃ frames last, Emits none (frames ++ [last]) (tr.filter isWrite) enc ∧
      Accounted (milestones tr) last ∧ (milestones tr = [] → Exempt s tr) := by
  obtain ⟨calls, writes, output, frames, mid, rfl, hserved, hmid, hend⟩ := served_of_runs h
  obtain ⟨warnings, last, rfl, hacc, hexempt⟩ := hserved.accounted
  have hmiles : milestones (calls ++ writes) = milestones (silent calls) :=
    milestones_of_writes hend.isWrite
  refine ⟨output.map Frame.chunk ++ warnings, last, ?_, ?_, ?_⟩
  · rw [List.filter_append, hend.writes_eq, List.append_assoc]
    exact hmid.append hend
  · rw [hmiles]
    exact hacc
  · intro hnil
    rw [hmiles] at hnil
    have hsub : ∀ e ∈ silent calls, e ∈ calls ++ writes := fun e he =>
      List.mem_append_left _ (List.mem_filter.1 he).1
    rcases hexempt hnil with ⟨err, hmem⟩ | ⟨input, req, cfg, hmem, hrest⟩
    · exact Or.inl ⟨err, hsub _ hmem⟩
    · exact Or.inr ⟨input, req, cfg, hsub _ hmem, hrest⟩

/-! A worker with one project, and a session in which an allowlisted command exits with 3. -/

section Witness

def exampleProject : Project where
  projectAlias := str "app"
  bwsProjectID := str "0000-1111"
  tokenEntry := str "app-token"
  workingDir := str "/srv/app"
  approval := Config.ApprovalPrompt
  allow := some [⟨[str "git", str "push"]⟩]

def exampleConfig : Config where
  runtime := ⟨str "/usr/local/bin/bws", str "/usr/bin", str "/var/lib/secrets-broker"⟩
  tokenSource := ⟨Config.BackendFile, [], str "/etc/secrets-broker/token"⟩
  approvalSource := ⟨Config.ApprovalBackendTailscaleRelay, ⟨str "http://relay:7620", 2, 300⟩⟩
  projects := [exampleProject]

@[reducible] def examplePlatform : Platform where
  isPrint _ := false
  unmarshal data := if data = str "policy" then .ok exampleConfig else .error []
  parseURL _ := some ⟨str "http", str "relay:7620", false, [], [], []⟩

def exampleServer : Server where
  policy := .ok (str "policy")
  validateExecutable _ := none
  validatePrivateDir _ := none
  validateTrustedDir _ := none
  resolve _ := .ok (str "s3cr3t")
  run _ _ := ⟨0, none, [], []⟩
  expired _ := false

def exampleRequest (argv : List Bytes) : Request := ⟨str "app", str "/srv/app", argv, false⟩

/-- What the example command leaves. -/
def exampleSpawned : Spawned :=
  .ended [(.stdout, str "pushed\n"), (.stderr, str "done\n")] (.code 3) none none

/-- The request is delivered, the adapters succeed and the approver approves. -/
def exampleAnswers (req : Request) : (c : Call) → c.Answer
  | .openLog => none
  | .input => ⟨encodeRequest req, none⟩
  | .adapter (.start _) => .ok (hexEncode [0x5E, 0xC2, 0xE7, 0x00, 0x11, 0x22, 0x33, 0x44])
  | .adapter (.evalSymlinks path) => .ok path
  | .adapter (.approve _) => (Decision.approved, none)
  | .adapter .approveCause => Approval.Cause.expired.text
  | .adapter (.resolve _) => .ok ⟨str "s3cr3t"⟩
  | .adapter (.run _) => .ok ⟨0⟩
  | .adapter (.finish _ _) => none
  | .exec _ => exampleSpawned
  | .write _ => none

def exampleSession (req : Request) : Calls × Encoder :=
  (@serve examplePlatform exampleServer).play (exampleAnswers req)

theorem session_accounted_push :
    ∃ last, (milestones (exampleSession (exampleRequest [str "git", str "push"])).1).length = 3 ∧
      Accounted (milestones (exampleSession (exampleRequest [str "git", str "push"])).1) last := by
  obtain ⟨frames, last, -, hacc, -⟩ := @session_accounted examplePlatform exampleServer _ _
    (runs_play (exampleAnswers (exampleRequest [str "git", str "push"])) _)
  exact ⟨last, by decide +kernel, hacc⟩

end Witness

end Worker.Session

end SecretsBroker
