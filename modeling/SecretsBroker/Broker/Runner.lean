import SecretsBroker.Broker.Run
import SecretsBroker.Foundations.Shell

/-!
# Running the command

`internal/runner` and `internal/execx`: `BWSRunner.Run` builds the command line of `bws run` around
a fixed `sudo` hop and the quoted words of the request, and `OSRunner.RunPassthrough` turns what
became of the child process into an exit code or an error. What the operating system and the child
do is the answer of the one call these programs make.
-/

namespace SecretsBroker

open Interaction

/-! ## os/exec -/

/-- `exec.Cmd`, as `RunPassthrough` fills it in. `env` is nil when the parent's is inherited. -/
structure Cmd where
  path : Bytes
  args : List Bytes
  env : Option (List Bytes)
  dir : Bytes
  stdin : Stream
  stdout : Stream
  stderr : Stream
  deriving DecidableEq

/-- How a started process ended. -/
inductive Exit
  | code (n : ℕ)
  | signalled (n : ℕ)
  deriving DecidableEq

/-- What became of a command: it was not started, or it was started and ended, while copying its
output or the context may have failed. -/
inductive Child
  | notStarted (err : Bytes)
  | ended (exit : Exit) (copyErr ctxErr : Option Bytes)
  deriving DecidableEq

namespace Child

def started : Child → Bool
  | .notStarted _ => false
  | .ended _ _ _ => true

/-- The command ran to a successful exit, and an error came after it: of the context or of copying
the output. -/
def lateError : Child → Bool
  | .ended (.code 0) copyErr ctxErr => (ctxErr.or copyErr).isSome
  | _ => false

end Child

/-- The errors of `Cmd.Run`: an `*exec.ExitError` with its exit code, or another error. -/
inductive ExecError
  | exit (exitCode : ℤ)
  | other (text : Bytes)
  deriving DecidableEq

/-- `Cmd.Run`: a non-zero or signalled exit is an `ExitError` (code -1 for a signal); otherwise an
error of the context or of copying the output is reported. -/
def Cmd.run : Child → Option ExecError
  | .notStarted err => some (.other err)
  | .ended (.code 0) copyErr ctxErr => (ctxErr.or copyErr).map .other
  | .ended (.code n) _ _ => some (.exit n)
  | .ended (.signalled _) _ _ => some (.exit (-1))

namespace Exec

/-- The call of an exec runner. -/
inductive Call
  | run (cmd : Cmd)

abbrev Call.Answer : Call → Type
  | .run _ => Child

abbrev Program := Prog Call Call.Answer

end Exec

/-- `OSRunner.RunPassthrough`: the exit code and the error. -/
def runPassthrough (name : Bytes) (args : List Bytes) (env : Option (List Bytes)) (dir : Bytes)
    (stdin stdout stderr : Stream) : Exec.Program (ℤ × Option Bytes) := do
  let child ← Prog.ask (Exec.Call.run
    { path := name, args := args, env := env, dir := dir, stdin := stdin, stdout := stdout,
      stderr := stderr })
  match Cmd.run child with
  | some (.exit exitCode) => pure (exitCode, none)
  | some (.other err) => pure (-1, some err)
  | none => pure (0, none)

/-! ## `BWSRunner` -/

structure BWSRunner where
  bwsBinary : Bytes
  commandPath : Bytes
  home : Bytes

namespace BWSRunner

def isolatedSudoBinary : Bytes := str "/usr/bin/sudo"
def isolatedRunnerUser : Bytes := str "secrets-broker-runner"

/-- `strings.ReplaceAll` of a one-byte text. -/
def replaceAll (s : Bytes) (old : UInt8) (new : Bytes) : Bytes :=
  s.flatMap fun b => if b = old then new else [b]

/-- `shellQuote`: single quotes around a token before `bws` hands it to a shell. -/
def shellQuote (s : Bytes) : Bytes :=
  str "'" ++ replaceAll s 0x27 (str "'\\''") ++ str "'"

/-- `buildEnv`. -/
def buildEnv (tokenValue commandPath home : Bytes) : List Bytes :=
  [str "PATH=" ++ commandPath, str "HOME=" ++ home, str "LANG=C.UTF-8",
    str "BWS_ACCESS_TOKEN=" ++ tokenValue]

/-- The words of the fixed hop to the runner user. -/
def sudoWords : List Bytes :=
  [isolatedSudoBinary, str "-n", str "-H", str "-u", isolatedRunnerUser, str "--"]

/-- The arguments that select the project, up to and with the separator of `bws` itself. -/
def bwsOptions (projectID : Bytes) : List Bytes :=
  [str "run", str "--project-id", projectID, str "--no-inherit-env", str "--"]

/-- The checks at the head of `Run`. -/
def check (r : BWSRunner) (spec : RunSpec) : Except Bytes Unit := do
  if spec.argv = [] then throw (str "runner: empty command")
  if spec.projectID = [] then throw (str "runner: empty project ID")
  if spec.token.value = [] then throw (str "runner: empty token")
  if !Path.isAbs r.bwsBinary then throw (str "runner: bws binary must be an absolute path")
  if spec.workingDir = [] then throw (str "runner: empty working directory")

/-- The arguments of `bws`. -/
def args (spec : RunSpec) : List Bytes :=
  bwsOptions spec.projectID ++ sudoWords.map shellQuote ++ spec.argv.map shellQuote

/-- `BWSRunner.Run`. -/
def run (r : BWSRunner) (spec : RunSpec) : Exec.Program (Except Bytes RunResult) :=
  match r.check spec with
  | .error err => pure (.error err)
  | .ok () => do
    let (exitCode, err) ← runPassthrough r.bwsBinary (args spec)
      (some (buildEnv spec.token.value r.commandPath r.home)) spec.workingDir spec.stdin spec.stdout
      spec.stderr
    match err with
    | some err => pure (.error (str "running bws: " ++ err))
    | none => pure (.ok ⟨exitCode⟩)

/-- The command that `Run` starts. -/
def cmd (r : BWSRunner) (spec : RunSpec) : Cmd where
  path := r.bwsBinary
  args := args spec
  env := some (buildEnv spec.token.value r.commandPath r.home)
  dir := spec.workingDir
  stdin := spec.stdin
  stdout := spec.stdout
  stderr := spec.stderr

/-- What `Run` answers when the child ended as `child`. -/
def answer (child : Child) : Except Bytes RunResult :=
  match Cmd.run child with
  | some (.exit exitCode) => .ok ⟨exitCode⟩
  | some (.other err) => .error (str "running bws: " ++ err)
  | none => .ok ⟨0⟩

/-- **`BWSRunner.Run` refuses, or starts one command and answers by what became of it.** -/
theorem runs_run {r : BWSRunner} {spec : RunSpec} {tr : Trace Exec.Call.Answer}
    {result : Except Bytes RunResult} (h : Runs (r.run spec) tr result) :
    (∃ err, r.check spec = .error err ∧ tr = [] ∧ result = .error err) ∨
      (r.check spec = .ok () ∧
        ∃ child, tr = [⟨.run (r.cmd spec), child⟩] ∧ result = answer child) := by
  unfold run at h
  split at h
  · next err hc =>
    obtain ⟨rfl, rfl⟩ := runs_pure.1 h
    exact Or.inl ⟨err, hc, rfl, rfl⟩
  · next hc =>
    refine Or.inr ⟨hc, ?_⟩
    obtain ⟨tr₁, tr₂, ⟨exitCode, err⟩, rfl, h₁, h₂⟩ := runs_bind.1 h
    obtain ⟨child, tr₃, rfl, h₃⟩ := runs_ask_bind.1 h₁
    refine ⟨child, ?_⟩
    unfold answer
    split at h₃ <;> obtain ⟨rfl, he⟩ := runs_pure.1 h₃ <;>
      obtain ⟨rfl, rfl⟩ := Prod.mk.inj he <;> obtain ⟨rfl, rfl⟩ := runs_pure.1 h₂ <;>
      exact ⟨rfl, rfl⟩

/-- `Run` reports an error for a process that was started exactly when its error is late. -/
theorem answer_cases (child : Child) :
    (∃ err, answer child = .error err ∧ child.started = child.lateError) ∨
      ∃ result, answer child = .ok result ∧ child.started = true ∧ child.lateError = false := by
  cases child with
  | notStarted err => exact Or.inl ⟨_, rfl, rfl⟩
  | ended exit copyErr ctxErr =>
    cases exit with
    | signalled n => exact Or.inr ⟨_, rfl, rfl, rfl⟩
    | code n =>
      cases n with
      | succ n => exact Or.inr ⟨_, rfl, rfl, rfl⟩
      | zero =>
        cases h : ctxErr.or copyErr with
        | none =>
          exact Or.inr ⟨⟨0⟩, by simp [answer, Cmd.run, h], rfl, by simp [Child.lateError, h]⟩
        | some err =>
          exact Or.inl ⟨str "running bws: " ++ err, by simp [answer, Cmd.run, h],
            by simp [Child.lateError, Child.started, h]⟩

/-! ## The words that reach the shell -/

theorem shellQuote_eq (s : Bytes) : shellQuote s = Shell.quote s := by
  have hq : str "'" = [Shell.quoteChar] := by decide
  have hr : str "'\\''" =
      [Shell.quoteChar, Shell.backslash, Shell.quoteChar, Shell.quoteChar] := by decide
  have he : replaceAll s 0x27 (str "'\\''") = Shell.escapeQuotes s := by
    induction s with
    | nil => rfl
    | cons b s ih =>
      have hb : (0x27 : UInt8) = Shell.quoteChar := rfl
      unfold replaceAll at ih ⊢
      rw [List.flatMap_cons, ih, hr, hb, Shell.escapeQuotes]
      split_ifs <;> rfl
  rw [shellQuote, he, hq, Shell.quote]
  rfl

/-- **Exactly the words of the request reach the command.** For every specification that `Run`
accepts, the words after the separator of `bws`, joined by spaces and read by a shell, are the fixed
words of the hop to the runner user followed by the arguments of the request, with nothing left to
expand. -/
theorem tokenize_trailing {r : BWSRunner} {spec : RunSpec} (hacc : r.check spec = .ok ())
    (hnul : ∀ arg ∈ spec.argv, 0 ∉ arg) {tr : Trace Exec.Call.Answer}
    {result : Except Bytes RunResult} (h : Runs (r.run spec) tr result) :
    ∃ cmd child trailing, tr = [⟨.run cmd, child⟩] ∧
      cmd.args = bwsOptions spec.projectID ++ trailing ∧
      Shell.tokenize (Shell.joinWords trailing) = some (sudoWords ++ spec.argv) := by
  rcases runs_run h with ⟨err, hc, -⟩ | ⟨-, child, rfl, -⟩
  · rw [hacc] at hc
    exact absurd hc (by simp)
  · refine ⟨r.cmd spec, child, (sudoWords ++ spec.argv).map shellQuote, rfl, ?_, ?_⟩
    · simp [cmd, args]
    · have hfixed : ∀ w ∈ sudoWords, 0 ∉ w := by decide
      rw [show shellQuote = Shell.quote from funext shellQuote_eq]
      refine Shell.tokenize_join_quote _ fun w hw => ?_
      rcases List.mem_append.1 hw with hw | hw
      · exact hfixed w hw
      · exact hnul w hw

/-- A request with a quote, a blank, an expansion and an empty word. -/
theorem tokenize_trailing_quotes :
    ∃ cmd child trailing,
      ((run ⟨str "/usr/bin/bws", [], []⟩ ⟨str "proj", ⟨str "t"⟩, str "/srv",
        [str "sh", str "it's", str "$(id) `x`\n", []], none, none, none⟩).play
          fun | .run _ => .notStarted []).1 = [⟨.run cmd, child⟩] ∧
      cmd.args = bwsOptions (str "proj") ++ trailing ∧
      Shell.tokenize (Shell.joinWords trailing) =
        some (sudoWords ++ [str "sh", str "it's", str "$(id) `x`\n", []]) :=
  tokenize_trailing (by decide) (by decide) (runs_play _ _)

end BWSRunner

end SecretsBroker
