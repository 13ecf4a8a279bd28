import SecretsBroker.Foundations.Threaded
import SecretsBroker.Approval.Tailscale
import SecretsBroker.Broker.DryRun
import SecretsBroker.Broker.Host
import SecretsBroker.Worker.Diagnose

/-!
# A session of the worker

`Server.Serve`: the worker opens its audit log, reads one request, loads and checks the policy, and
then runs the broker, whose command writes its output through the same encoder as the session's
answer. Every path that ends before the broker leaves a pair of audit records of its own.

The session is a program over what it meets: the audit log, its standard input and output, the
broker's adapters and the operating system. The JSON encoder keeps the first error of its writer and
writes nothing after it, so its state is passed along the run of the broker (`Prog.thread`).

`served_of_runs` is the shape of a session: the calls that are no writes, and the frames that the
encoder was given; `Emits` says which of them were written.
-/

namespace SecretsBroker.Worker

open Interaction

/-- What `writeWorkerError` sends. -/
def Frame.ofError (message : Bytes) : Frame := ⟨frameError, [], none, message⟩

namespace Session

/-! ## The calls of a session -/

/-- What the operating system makes of a command: it is not started, or it is, the two copying
goroutines of os/exec read its output in these pieces, and it ends. -/
inductive Spawned
  | notStarted (err : Bytes)
  | ended (output : List (Stream × Bytes)) (exit : Exit) (readErr ctxErr : Option Bytes)
  deriving DecidableEq

namespace Spawned

def started : Spawned → Bool
  | .notStarted _ => false
  | .ended _ _ _ _ => true

/-- What the command has written. -/
def output : Spawned → List (Stream × Bytes)
  | .notStarted _ => []
  | .ended output _ _ _ => output

end Spawned

/-- The calls of `Serve`: the audit log is opened, the request is read, the broker's adapters are
called, the command is executed, and the encoder writes a frame. -/
inductive Call
  | openLog
  | input
  | adapter (c : Broker.Call)
  | exec (cmd : Cmd)
  | write (f : Frame)

/-- What a call is answered by. A write that fails has written some bytes before. -/
abbrev Call.Answer : Call → Type
  | .openLog => Option Bytes
  | .input => Reader
  | .adapter c => c.Answer
  | .exec _ => Spawned
  | .write _ => Option (ℕ × Bytes)

abbrev Program := Prog Call Call.Answer
abbrev Calls := Trace Call.Answer

/-- The state of `json.Encoder`: the error of the first write that failed. -/
abbrev Encoder := Option Bytes

/-- `encoder.Encode`: the error that it returns is the one that it keeps. -/
def encode (enc : Encoder) (f : Frame) : Program Encoder :=
  match enc with
  | some err => pure (some err)
  | none => do
    let res ← Prog.ask (Call.write f)
    pure (res.map Prod.snd)

/-- The copying of a command's output through the two `frameWriter`s, and its error. Behind an error
the encoder writes nothing more, so whatever the other goroutine still reads is lost. -/
def copyOutput : List (Stream × Bytes) → Encoder → Program (Option Bytes × Encoder)
  | [], enc => pure (none, enc)
  | c :: output, enc => do
    match ← encode enc (Frame.chunk c) with
    | some err => pure (some err, some err)
    | none => copyOutput output none

/-- `Cmd.Run` with the writers of the session. -/
def execute (cmd : Cmd) (enc : Encoder) : Program (Child × Encoder) := do
  match ← Prog.ask (Call.exec cmd) with
  | .notStarted err => pure (.notStarted err, enc)
  | .ended output exit readErr ctxErr =>
    let (writeErr, enc) ← copyOutput output enc
    pure (.ended exit (writeErr.or readErr) ctxErr, enc)

/-- The calls of the broker and its runner within a session. -/
def answer (enc : Encoder) : (c : Host.Call) → Program (c.Answer × Encoder)
  | .adapter c => do
    let res ← Prog.ask (Call.adapter c)
    pure (res, enc)
  | .exec cmd => execute cmd enc

/-! ## `Serve` -/

def writeWorkerError (err : Bytes) : Program Encoder := encode none (Frame.ofError err)

def auditDenied (req : Request) (outcome : Bytes) : Program (Option Bytes) := do
  match ← Prog.ask (Call.adapter (.start ⟨req.project, req.workingDir, req.argv⟩)) with
  | .error err => pure (some err)
  | .ok runID => Prog.ask (Call.adapter (.finish runID ⟨str "denied:" ++ outcome, none⟩))

/-- The error that the caller is told, with the one of the audit log. -/
def workerError (workerErr : Bytes) : Option Bytes → Bytes
  | none => workerErr
  | some auditErr => workerErr ++ str "; audit failure: " ++ auditErr

def writeAuditedWorkerError (req : Request) (outcome workerErr : Bytes) : Program Encoder := do
  let auditErr ← auditDenied req outcome
  writeWorkerError (workerError workerErr auditErr)

/-- The policy of a session: loaded, and checked with the runtime that it names. -/
def config [Platform] (s : Server) : Except Bytes Config :=
  match s.loadWorker with
  | .error err => .error err
  | .ok cfg =>
    match cfg.validateWorker with
    | .error err => .error (str "invalid worker config: " ++ err)
    | .ok () =>
      match s.validateRuntime cfg.runtime with
      | .error err => .error (str "invalid worker runtime: " ++ err)
      | .ok () => .ok cfg

/-- The broker of a session; `TailscaleApprover` can explain a denial. -/
def broker (cfg : Config) : Broker := ⟨cfg, true⟩

def runner (cfg : Config) : BWSRunner :=
  ⟨cfg.runtime.bwsBinary, cfg.runtime.commandPath, cfg.runtime.home⟩

/-- What the broker is asked; the two streams are the `frameWriter`s. -/
def runRequest (req : Request) : RunRequest where
  project := req.project
  workingDir := req.workingDir
  argv := req.argv
  stdin := none
  stdout := some 1
  stderr := some 2

/-- The result of an outcome. -/
def resultOf (out : RunOutcome) : Result where
  denied := out.denied
  reason := (out.reason.map Reason.text).getD []
  cause := out.approvalCause
  exitCode :=
    if out.denied then if out.reason = some .runnerStartFailed then 126 else 125
    else Int64.ofInt out.exitCode

def warning : Bytes :=
  str "secrets-broker: warning: audit finish record could not be written\n"

/-- The frames that end a session after the broker has returned. -/
def closing (out : RunOutcome) : List Frame :=
  (if out.auditIncomplete then [Frame.chunk (.stderr, warning)] else []) ++
    [Frame.ofResult (resultOf out)]

/-- The end of `Serve`: a warning when the audit record could not be closed, and the result. -/
def report (out : RunOutcome) (enc : Encoder) : Program Encoder :=
  if out.auditIncomplete then do
    let enc ← encode enc (Frame.chunk (.stderr, warning))
    encode enc (Frame.ofResult (resultOf out))
  else encode enc (Frame.ofResult (resultOf out))

/-- The part of `Serve` for a request that is to be executed. -/
def serveRun [Unicode] (cfg : Config) (req : Request) : Program Encoder := do
  let (out, enc) ← (Host.run (runner cfg) (broker cfg) (runRequest req)).thread answer none
  report out enc

/-- The part of `Serve` for a dry run. -/
def serveDryRun [Unicode] (cfg : Config) (req : Request) : Program Encoder := do
  let dry ← ((broker cfg).dryRun req.project req.workingDir req.argv).interp
    fun c => Prog.ask (Call.adapter c)
  encode none (Frame.ofResult (dryRunResult dry))

/-- `Server.Serve`; it returns the error of the encoder. -/
def serve [Platform] (s : Server) : Program Encoder := do
  match ← Prog.ask Call.openLog with
  | some err => writeWorkerError err
  | none =>
    match decodeRequest (← Prog.ask Call.input) with
    | .error err => writeAuditedWorkerError {} (str "invalid_request") err.text
    | .ok req =>
      match config s with
      | .error err => writeAuditedWorkerError req (str "config_unavailable") err
      | .ok cfg => if req.dryRun then serveDryRun cfg req else serveRun cfg req

/-- Some answer to each call. -/
def someAnswer : (c : Call) → c.Answer
  | .openLog => none
  | .input => ⟨[], none⟩
  | .adapter (.start _) => .error []
  | .adapter (.evalSymlinks _) => .error []
  | .adapter (.approve _) => (Decision.denied, none)
  | .adapter .approveCause => []
  | .adapter (.resolve _) => .error []
  | .adapter (.run _) => .error []
  | .adapter (.finish _ _) => none
  | .exec _ => .notStarted []
  | .write _ => none

theorem config_accepted [Platform] {s : Server} {cfg : Config} (h : config s = .ok cfg) :
    cfg.Accepted := by
  unfold config at h
  split at h
  · cases h
  · next hload =>
    split at h
    · cases h
    · split at h
      · cases h
      · obtain rfl := Except.ok.inj h
        unfold Server.loadWorker at hload
        split at hload
        · cases hload
        · exact Config.accepted_of_parse hload

/-! ## What the encoder has written -/

def isWrite (e : Event Call.Answer) : Bool := e.1 matches .write _

/-- The bytes that the writes of a session put on its standard output. -/
def wire (tr : Calls) : Bytes :=
  tr.flatMap fun e =>
    match e with
    | ⟨.write f, none⟩ => f.encode
    | ⟨.write f, some (n, _)⟩ => f.encode.take n
    | _ => []

/-- The encoder was given the frames in turn: it writes them up to the first error, which it keeps
(`tr` are the writes). -/
inductive Emits : Encoder → List Frame → Calls → Encoder → Prop
  | nil (enc : Encoder) : Emits enc [] [] enc
  | sent {f : Frame} {frames : List Frame} {tr : Calls} {enc : Encoder}
    (h : Emits none frames tr enc) : Emits none (f :: frames) (⟨.write f, none⟩ :: tr) enc
  | failed (f : Frame) (frames : List Frame) (n : ℕ) (err : Bytes) :
    Emits none (f :: frames) [⟨.write f, some (n, err)⟩] (some err)
  | stuck (err : Bytes) (frames : List Frame) : Emits (some err) frames [] (some err)

theorem Emits.append {enc enc₁ enc₂ : Encoder} {frames₁ frames₂ : List Frame} {tr₁ tr₂ : Calls}
    (h₁ : Emits enc frames₁ tr₁ enc₁) (h₂ : Emits enc₁ frames₂ tr₂ enc₂) :
    Emits enc (frames₁ ++ frames₂) (tr₁ ++ tr₂) enc₂ := by
  induction h₁ with
  | nil enc => exact h₂
  | sent _ ih => exact .sent (ih h₂)
  | failed f frames n err =>
    cases h₂ <;> exact .failed f _ n err
  | stuck err frames =>
    cases h₂ <;> exact .stuck err _

/-- The encoder writes the beginning of the frames, and all of them if it has no error. -/
theorem Emits.wire_eq {frames : List Frame} {tr : Calls} {enc enc' : Encoder}
    (h : Emits enc frames tr enc') :
    wire tr <+: frames.flatMap Frame.encode ∧
      (enc' = none → wire tr = frames.flatMap Frame.encode) := by
  induction h with
  | nil enc => exact ⟨List.prefix_refl _, fun _ => rfl⟩
  | @sent f frames tr enc _ ih =>
    have hcons : wire (⟨.write f, none⟩ :: tr) = f.encode ++ wire tr := rfl
    rw [hcons, List.flatMap_cons]
    refine ⟨?_, fun he => by rw [ih.2 he]⟩
    obtain ⟨rest, hrest⟩ := ih.1
    exact ⟨rest, by rw [List.append_assoc, hrest]⟩
  | failed f frames n err =>
    refine ⟨?_, fun he => by cases he⟩
    have hone : wire [⟨.write f, some (n, err)⟩] = f.encode.take n := by simp [wire]
    rw [hone, List.flatMap_cons]
    exact (List.take_prefix n _).trans (List.prefix_append _ _)
  | stuck err frames => exact ⟨List.nil_prefix, fun he => by cases he⟩

theorem wire_append (tr₁ tr₂ : Calls) : wire (tr₁ ++ tr₂) = wire tr₁ ++ wire tr₂ := by
  simp [wire, List.flatMap_append]

/-- Only the writes put something on the wire. -/
theorem wire_filter (tr : Calls) : wire (tr.filter isWrite) = wire tr := by
  induction tr with
  | nil => rfl
  | cons e tr ih =>
    obtain ⟨c, r⟩ := e
    cases c with
    | write f =>
      rw [List.filter_cons_of_pos (by rfl)]
      simp only [wire, List.flatMap_cons] at ih ⊢
      rw [ih]
    | _ =>
      rw [List.filter_cons_of_neg (by simp [isWrite]), ih]
      rfl

theorem runs_encode {enc enc' : Encoder} {f : Frame} {tr : Calls}
    (h : Runs (encode enc f) tr enc') : Emits enc [f] tr enc' := by
  unfold encode at h
  split at h
  · obtain ⟨rfl, rfl⟩ := runs_pure.1 h
    exact .stuck _ _
  · obtain ⟨res, tr', rfl, h₁⟩ := runs_ask_bind.1 h
    obtain ⟨rfl, rfl⟩ := runs_pure.1 h₁
    cases res with
    | none => exact .sent (.nil none)
    | some e => exact .failed f [] e.1 e.2

theorem runs_report {out : RunOutcome} {enc enc' : Encoder} {tr : Calls}
    (h : Runs (report out enc) tr enc') : Emits enc (closing out) tr enc' := by
  unfold report at h
  unfold closing
  split at h
  · next hinc =>
    obtain ⟨tr₁, tr₂, enc₁, rfl, h₁, h₂⟩ := runs_bind.1 h
    rw [if_pos hinc]
    exact (runs_encode h₁).append (runs_encode h₂)
  · next hinc =>
    rw [if_neg hinc]
    exact runs_encode h

theorem runs_copyOutput {output : List (Stream × Bytes)} {enc : Encoder} {tr : Calls}
    {x : Option Bytes × Encoder} (h : Runs (copyOutput output enc) tr x) :
    Emits enc (output.map Frame.chunk) tr x.2 := by
  induction output generalizing enc tr with
  | nil =>
    obtain ⟨rfl, rfl⟩ := runs_pure.1 h
    exact .nil enc
  | cons c output ih =>
    obtain ⟨tr₁, tr₂, enc₁, rfl, h₁, h₂⟩ := runs_bind.1 h
    have hfirst := runs_encode h₁
    cases enc₁ with
    | none => exact hfirst.append (ih h₂)
    | some err =>
      obtain ⟨rfl, rfl⟩ := runs_pure.1 h₂
      exact hfirst.append (.stuck err _)

/-! ## The shape of a session -/

/-- Calls of the broker within a session. -/
def lift (tr : Broker.Calls) : Calls := tr.map fun e => ⟨.adapter e.1, e.2⟩

/-- The child that a command is to its runner. -/
def Spawned.Ends : Spawned → Child → Prop
  | .notStarted err, child => child = .notStarted err
  | .ended _ exit _ ctxErr, child => ∃ copyErr, child = .ended exit copyErr ctxErr

theorem Spawned.Ends.started {spawned : Spawned} {child : Child} (h : spawned.Ends child) :
    child.started = spawned.started := by
  cases spawned with
  | notStarted err =>
    rw [show child = .notStarted err from h]
    rfl
  | ended output exit readErr ctxErr =>
    obtain ⟨copyErr, rfl⟩ := h
    rfl

/-- What the broker does within a session, apart from the writes of the encoder: its calls, what the
command has written, and the outcome. -/
inductive Ran [Unicode] (cfg : Config) (req : Request) :
    Calls → List (Stream × Bytes) → RunOutcome → Prop
  /-- The broker does not call its runner. -/
  | stopped {tr : Broker.Calls} {out : RunOutcome}
    (hrun : Runs ((broker cfg).run (runRequest req)) tr out)
    (hno : ∀ e ∈ tr, Broker.isRunner e = false) : Ran cfg req (lift tr) [] out
  /-- The runner does not start a command. -/
  | refused {runID err : Bytes} {before : Broker.Calls} {spec : RunSpec} {res : Option Bytes}
    {out : RunOutcome} (hrun : Runs ((broker cfg).run (runRequest req))
      (before ++ [⟨.run spec, .error err⟩, ⟨.finish runID (Broker.finishRecord out), res⟩]) out)
    (hpassed : Broker.Passed Broker.Cleared (broker cfg) (runRequest req) runID before spec)
    (hcheck : (runner cfg).check spec = .error err) (hout : Broker.Reflects out (.error err)) :
    Ran cfg req (lift before ++ [⟨.adapter (.finish runID (Broker.finishRecord out)), res⟩]) [] out
  | executed {runID : Bytes} {before : Broker.Calls} {spec : RunSpec} {spawned : Spawned}
    {child : Child} {res : Option Bytes} {out : RunOutcome}
    (hrun : Runs ((broker cfg).run (runRequest req)) (before ++ [⟨.run spec,
      BWSRunner.answer child⟩, ⟨.finish runID (Broker.finishRecord out), res⟩]) out)
    (hpassed : Broker.Passed Broker.Cleared (broker cfg) (runRequest req) runID before spec)
    (hcheck : (runner cfg).check spec = .ok ()) (hends : spawned.Ends child)
    (hout : Broker.Reflects out (BWSRunner.answer child)) :
    Ran cfg req (lift before ++ [⟨.exec ((runner cfg).cmd spec), spawned⟩,
      ⟨.adapter (.finish runID (Broker.finishRecord out)), res⟩]) spawned.output out

/-- Why a session ends before the broker: the request that is recorded, the outcome and the
error. -/
inductive Refuses [Platform] (s : Server) (input : Reader) : Request → Bytes → Bytes → Prop
  | request {err : RequestError} (h : decodeRequest input = .error err) :
    Refuses s input {} (str "invalid_request") err.text
  | config {req : Request} {err : Bytes} (hreq : decodeRequest input = .ok req)
    (h : config s = .error err) : Refuses s input req (str "config_unavailable") err

/-- The calls of a session apart from the writes of the encoder, what the command has written, and
the frames that end the session. -/
inductive Served [Platform] (s : Server) : Calls → List (Stream × Bytes) → List Frame → Prop
  | noLog (err : Bytes) : Served s [⟨.openLog, some err⟩] [] [Frame.ofError err]
  | refused {input : Reader} {req : Request} {outcome err : Bytes} {audit : Calls}
    {auditErr : Option Bytes} (hwhy : Refuses s input req outcome err)
    (haudit : Runs (auditDenied req outcome) audit auditErr) :
    Served s (⟨.openLog, none⟩ :: ⟨.input, input⟩ :: audit) []
      [Frame.ofError (workerError err auditErr)]
  | dryRun {input : Reader} {req : Request} {cfg : Config} {tr : Broker.Calls} {dry : DryRunResult}
    (hreq : decodeRequest input = .ok req) (hcfg : config s = .ok cfg) (hdry : req.dryRun = true)
    (hrun : Runs ((broker cfg).dryRun req.project req.workingDir req.argv) tr dry) :
    Served s (⟨.openLog, none⟩ :: ⟨.input, input⟩ :: lift tr) []
      [Frame.ofResult (dryRunResult dry)]
  | ran {input : Reader} {req : Request} {cfg : Config} {calls : Calls}
    {output : List (Stream × Bytes)} {out : RunOutcome}
    (hreq : decodeRequest input = .ok req) (hcfg : config s = .ok cfg) (hdry : req.dryRun = false)
    (hran : Ran cfg req calls output out) :
    Served s (⟨.openLog, none⟩ :: ⟨.input, input⟩ :: calls) output (closing out)

/-- The calls that are no writes. -/
def silent (tr : Calls) : Calls := tr.filter fun e => !isWrite e

@[simp] theorem silent_append (tr₁ tr₂ : Calls) : silent (tr₁ ++ tr₂) = silent tr₁ ++ silent tr₂ :=
  List.filter_append ..

theorem silent_eq_self {tr : Calls} (h : ∀ e ∈ tr, isWrite e = false) : silent tr = tr :=
  List.filter_eq_self.2 fun e he => by simp [h e he]

theorem writes_eq_nil {tr : Calls} (h : ∀ e ∈ tr, isWrite e = false) : tr.filter isWrite = [] :=
  List.filter_eq_nil_iff.2 fun e he => by simp [h e he]

theorem not_write_lift (tr : Broker.Calls) : ∀ e ∈ lift tr, isWrite e = false := by
  intro e he
  obtain ⟨e', -, rfl⟩ := List.mem_map.1 he
  rfl

/-- All that an encoder does is writing. -/
theorem Emits.isWrite {enc enc' : Encoder} {frames : List Frame} {tr : Calls}
    (h : Emits enc frames tr enc') : ∀ e ∈ tr, isWrite e = true := by
  induction h with
  | nil enc => simp
  | sent _ ih =>
    intro e he
    rcases List.mem_cons.1 he with rfl | he
    · rfl
    · exact ih e he
  | failed f frames n err =>
    intro e he
    obtain rfl := List.mem_singleton.1 he
    rfl
  | stuck err frames => simp

theorem Emits.silent_eq {enc enc' : Encoder} {frames : List Frame} {tr : Calls}
    (h : Emits enc frames tr enc') : silent tr = [] :=
  List.filter_eq_nil_iff.2 fun e he => by simp [h.isWrite e he]

theorem Emits.writes_eq {enc enc' : Encoder} {frames : List Frame} {tr : Calls}
    (h : Emits enc frames tr enc') : tr.filter Session.isWrite = tr :=
  List.filter_eq_self.2 h.isWrite

/-! ### The broker within a session -/

theorem threads_lift {enc enc' : Encoder} {tr₀ : Broker.Calls} {tr : Calls}
    (h : Threads answer enc (Host.lift tr₀) tr enc') : tr = lift tr₀ ∧ enc' = enc := by
  induction tr₀ generalizing tr with
  | nil =>
    cases h
    exact ⟨rfl, rfl⟩
  | cons e tr₀ ih =>
    cases h with
    | cons hp ht =>
      obtain ⟨res, tr', rfl, h₁⟩ := runs_ask_bind.1 hp
      obtain ⟨rfl, heq⟩ := runs_pure.1 h₁
      obtain ⟨rfl, rfl⟩ := Prod.mk.inj heq
      obtain ⟨rfl, rfl⟩ := ih ht
      exact ⟨rfl, rfl⟩

theorem threads_exec {enc enc' : Encoder} {cmd : Cmd} {child : Child} {tr : Calls}
    (h : Threads answer enc [⟨.exec cmd, child⟩] tr enc') :
    ∃ spawned writes, tr = ⟨.exec cmd, spawned⟩ :: writes ∧ spawned.Ends child ∧
      Emits enc (spawned.output.map Frame.chunk) writes enc' := by
  cases h with
  | cons hp ht =>
    cases ht
    rw [List.append_nil]
    obtain ⟨spawned, writes, rfl, h₁⟩ := runs_ask_bind.1 hp
    refine ⟨spawned, writes, rfl, ?_⟩
    cases spawned with
    | notStarted err =>
      obtain ⟨rfl, heq⟩ := runs_pure.1 h₁
      obtain ⟨rfl, rfl⟩ := Prod.mk.inj heq
      exact ⟨rfl, .nil _⟩
    | ended output exit readErr ctxErr =>
      obtain ⟨tr₁, tr₂, x, rfl, h₂, h₃⟩ := runs_bind.1 h₁
      obtain ⟨rfl, heq⟩ := runs_pure.1 h₃
      obtain ⟨rfl, rfl⟩ := Prod.mk.inj heq
      rw [List.append_nil]
      exact ⟨⟨_, rfl⟩, runs_copyOutput h₂⟩

/-- What the broker does within a session, and what the encoder writes meanwhile. -/
theorem ran_of_runs [Unicode] {cfg : Config} {req : Request} {tr : Calls}
    {x : RunOutcome × Encoder}
    (h : Runs ((Host.run (runner cfg) (broker cfg) (runRequest req)).thread answer none) tr x) :
    ∃ output, Ran cfg req (silent tr) output x.1 ∧
      Emits none (output.map Frame.chunk) (tr.filter isWrite) x.2 := by
  obtain ⟨trh, hhost, hthreads⟩ := runs_thread h
  obtain ⟨tr₀, hrun, hi⟩ := runs_interp hhost
  by_cases hno : ∀ e ∈ tr₀, Broker.isRunner e = false
  · rw [Host.interprets_lift hno hi] at hthreads
    obtain ⟨rfl, henc⟩ := threads_lift hthreads
    refine ⟨[], ?_, ?_⟩
    · rw [silent_eq_self (not_write_lift _)]
      exact .stopped hrun hno
    · rw [writes_eq_nil (not_write_lift _), henc]
      exact .nil none
  · -- the runner was called, behind the gate
    rcases Broker.run_cases hrun with ⟨e, rfl, -⟩ | ⟨runID, tr₁, rfl, hs⟩ |
      ⟨runID, before, spec, result, res, hpassed, hquiet, rfl, hout⟩
    · exact absurd (by simp [Broker.isRunner]) hno
    · refine absurd (fun e he => ?_) hno
      rcases List.mem_cons.1 he with rfl | he
      · rfl
      · simpa using List.countP_eq_zero.1 hs.countP_runner e he
    obtain ⟨trh₁, trh₂, rfl, h₁, h₂⟩ := hi.of_append
    cases h₂ with
    | @cons _ _ piece trh₃ hrunner h₃ =>
    rw [Host.interprets_lift hquiet.not_runner h₁,
      Host.interprets_lift (by simp [Broker.isRunner]) h₃] at hthreads
    obtain ⟨tr₁, tr₂, enc₁, rfl, ht₁, ht₂⟩ := hthreads.of_append
    obtain ⟨tr₃, tr₄, enc₂, rfl, ht₃, ht₄⟩ := ht₂.of_append
    obtain ⟨rfl, rfl⟩ := threads_lift ht₁
    obtain ⟨rfl, henc⟩ := threads_lift ht₄
    have hbefore := not_write_lift before
    have hfinish := not_write_lift [⟨.finish runID (Broker.finishRecord x.1), res⟩]
    rcases Host.runs_adapters_run hrunner with ⟨err, hc, rfl, rfl⟩ | ⟨hc, child, rfl, rfl⟩
    · cases ht₃
      refine ⟨[], ?_, ?_⟩
      · rw [silent_append, silent_append, silent_eq_self hbefore, silent_eq_self hfinish]
        exact .refused hrun hpassed hc hout
      · rw [List.filter_append, List.filter_append, writes_eq_nil hbefore, writes_eq_nil hfinish,
          henc]
        exact .nil none
    · obtain ⟨spawned, writes, rfl, hends, hemits⟩ := threads_exec ht₃
      refine ⟨spawned.output, ?_, ?_⟩
      · have hexec : silent (⟨.exec ((runner cfg).cmd spec), spawned⟩ :: writes) =
            [⟨.exec ((runner cfg).cmd spec), spawned⟩] := by
          rw [silent, List.filter_cons_of_pos (by rfl)]
          exact congrArg _ hemits.silent_eq
        rw [silent_append, silent_append, silent_eq_self hbefore, silent_eq_self hfinish, hexec]
        exact .executed hrun hpassed hc hends hout
      · rw [List.filter_append, List.filter_append, writes_eq_nil hbefore, writes_eq_nil hfinish,
          List.filter_cons_of_neg (by simp [isWrite]), hemits.writes_eq, List.append_nil, henc]
        exact hemits

/-! ### Whole sessions -/

theorem interprets_adapter {tr₀ : Broker.Calls} {tr : Calls}
    (h : Interprets (fun c => Prog.ask (Call.adapter c)) tr₀ tr) : tr = lift tr₀ := by
  induction h with
  | nil => rfl
  | cons hp _ ih =>
    rw [runs_ask.1 hp, ih]
    rfl

theorem not_write_auditDenied {req : Request} {outcome : Bytes} {tr : Calls}
    {auditErr : Option Bytes} (h : Runs (auditDenied req outcome) tr auditErr) :
    ∀ e ∈ tr, isWrite e = false := by
  obtain ⟨r, tr₁, rfl, h₁⟩ := runs_ask_bind.1 h
  cases r with
  | error err =>
    obtain ⟨rfl, -⟩ := runs_pure.1 h₁
    simp [isWrite]
  | ok runID =>
    rw [runs_ask.1 h₁]
    simp [isWrite]

/-- **The shape of a session**: first the calls of `Served` and the frames of the command's output,
and then the frames that end the session. -/
theorem served_of_runs [Platform] {s : Server} {tr : Calls} {enc : Encoder}
    (h : Runs (serve s) tr enc) :
    ∃ calls writes output last mid, tr = calls ++ writes ∧ Served s (silent calls) output last ∧
      Emits none (output.map Frame.chunk) (calls.filter isWrite) mid ∧
      Emits mid last writes enc := by
  obtain ⟨r, tr₁, rfl, h₁⟩ := runs_ask_bind.1 h
  cases r with
  | some err =>
    exact ⟨[⟨.openLog, some err⟩], tr₁, [], _, none, rfl, .noLog err, .nil none, runs_encode h₁⟩
  | none =>
  obtain ⟨input, tr₂, rfl, h₂⟩ := runs_ask_bind.1 h₁
  -- the calls so far, and more that are no writes
  have hhead : ∀ calls : Calls, (∀ e ∈ calls, isWrite e = false) →
      ∀ e ∈ (⟨.openLog, none⟩ :: ⟨.input, input⟩ :: calls : Calls), isWrite e = false := by
    intro calls hcalls e he
    rcases List.mem_cons.1 he with rfl | he
    · rfl
    rcases List.mem_cons.1 he with rfl | he
    · rfl
    · exact hcalls e he
  have hrefused : ∀ {req : Request} {outcome err : Bytes}, Refuses s input req outcome err →
      Runs (writeAuditedWorkerError req outcome err) tr₂ enc →
      ∃ calls writes output last mid, ⟨.openLog, none⟩ :: ⟨.input, input⟩ :: tr₂ = calls ++ writes ∧
        Served s (silent calls) output last ∧
        Emits none (output.map Frame.chunk) (calls.filter isWrite) mid ∧
        Emits mid last writes enc := by
    intro req outcome err hwhy hwrite
    obtain ⟨audit, writes, auditErr, rfl, h₃, h₄⟩ := runs_bind.1 hwrite
    have hsilent := hhead audit (not_write_auditDenied h₃)
    refine ⟨⟨.openLog, none⟩ :: ⟨.input, input⟩ :: audit, writes, [], _, none, rfl, ?_, ?_,
      runs_encode h₄⟩
    · rw [silent_eq_self hsilent]
      exact .refused hwhy h₃
    · rw [writes_eq_nil hsilent]
      exact .nil none
  cases hreq : decodeRequest input with
  | error err =>
    simp only [hreq] at h₂
    exact hrefused (.request hreq) h₂
  | ok req =>
  cases hcfg : config s with
  | error err =>
    simp only [hreq, hcfg] at h₂
    exact hrefused (.config hreq hcfg) h₂
  | ok cfg =>
  simp only [hreq, hcfg] at h₂
  cases hdry : req.dryRun with
  | true =>
    simp only [hdry, if_true] at h₂
    obtain ⟨tr₃, writes, dry, rfl, h₃, h₄⟩ := runs_bind.1 h₂
    obtain ⟨tr₀, hrun, hi⟩ := runs_interp h₃
    obtain rfl := interprets_adapter hi
    have hsilent := hhead (lift tr₀) (not_write_lift tr₀)
    refine ⟨⟨.openLog, none⟩ :: ⟨.input, input⟩ :: lift tr₀, writes, [], _, none, rfl, ?_, ?_,
      runs_encode h₄⟩
    · rw [silent_eq_self hsilent]
      exact .dryRun hreq hcfg hdry hrun
    · rw [writes_eq_nil hsilent]
      exact .nil none
  | false =>
    simp only [hdry, Bool.false_eq_true, if_false] at h₂
    obtain ⟨tr₃, writes, ⟨out, enc₁⟩, rfl, h₃, h₄⟩ := runs_bind.1 h₂
    obtain ⟨output, hran, hemits⟩ := ran_of_runs h₃
    exact ⟨⟨.openLog, none⟩ :: ⟨.input, input⟩ :: tr₃, writes, output, closing out, enc₁, rfl,
      .ran hreq hcfg hdry hran, hemits, runs_report h₄⟩

end Session

end SecretsBroker.Worker
